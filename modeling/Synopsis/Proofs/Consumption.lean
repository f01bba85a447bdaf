import Mathlib.Data.List.Permutation
import Synopsis.Proofs.Positionals
import Synopsis.Proofs.StraightLine
import Synopsis.Proofs.Words

/-!
# What a match takes

A match that fits takes leaves by fixed rules, however its groups are nested (`Consumes`). What it
leaves keeps its order. The positional words that it takes are the first ones; of an option it takes
all occurrences or none; a leaf of any other kind it never takes. Each word taken makes one change to
the bindings, and that change is one an argument or a command of the pattern makes (`Leaf.Binds`).
A match that fails has taken nothing and bound nothing, whatever it tried
(`Tree.matchNode_of_not_matched`).

What a single leaf can do is said once (`Leaf.Acts`). From that, a leaf that fits keeps the rules; so
does doing nothing, and what keeps them step by step keeps them as a whole (`Consumes.trans`). A match
that fits has followed a word of its pattern leaf by leaf (`Pattern.follows_matcher`), so no group has to
be looked at again. Likewise, each leaf that fits takes something, so a match that takes nothing does
nothing (`Pattern.progresses_matcher`).
-/

namespace Synopsis

/-! ## What a leaf can do -/

/-- **`l.Acts s o`**: in the state `s`, the leaf `l` can have the outcome `o`. -/
inductive Leaf.Acts (l : Leaf) : MatchState → Outcome → Prop
  /-- The leaf fails, and nothing has changed. -/
  | fails (s : MatchState) : Acts l s (.failure s)
  /-- The leaf takes the first positional leaf, and binds what it holds. -/
  | takesWord {before : List Leaf} {v : Value} {after bound bound' : List Leaf}
      (hbefore : ∀ m ∈ before, m.isPositional = false) (hbinds : l.Binds v.text bound bound') :
      Acts l ⟨before ++ .argument none v :: after, bound⟩ (.success ⟨before ++ after, bound'⟩)
  /-- The leaf takes the leaves for which a test holds, one at least. Only options pass the test, and
  options of the same names pass it alike. -/
  | takesOptions {test : Leaf → Bool} {s : MatchState}
      (hoption : ∀ m, m.isOption = false → test m = false)
      (hnames : ∀ o p : Opt, p.sameNames o = true → test (.option p) = test (.option o))
      (hany : s.left.any test = true) :
      Acts l s (.success ⟨s.left.filter fun m => !test m, s.collected⟩)

theorem acts_matchAllOf (l : Leaf) {test : Leaf → Bool}
    (hoption : ∀ m, m.isOption = false → test m = false)
    (hnames : ∀ o p : Opt, p.sameNames o = true → test (.option p) = test (.option o))
    (s : MatchState) : l.Acts s (matchAllOf test s) := by
  cases hany : s.left.any test with
  | true =>
    have hfit : matchAllOf test s = .success ⟨s.left.filter fun m => !test m, s.collected⟩ :=
      congrArg (Outcome.mk _) hany
    rw [hfit]
    exact .takesOptions hoption hnames hany
  | false =>
    -- the filtered leaves are handed back, but nothing was there to be filtered out
    have hstate : (matchAllOf test s).stateOr s = s := if_neg (Bool.eq_false_iff.mp hany)
    have hfail : matchAllOf test s = .failure s := by
      rw [stateOr_matchAllOf] at hstate
      show Outcome.mk ⟨s.left.filter fun m => !test m, s.collected⟩ (s.left.any test) = ⟨s, false⟩
      rw [hstate, hany]
    rw [hfail]
    exact .fails s

/-- Whatever state it is given, a leaf does one of the things that it can do. -/
theorem Leaf.acts (l : Leaf) (s : MatchState) : l.Acts s (l.matcher s) := by
  obtain ⟨left, bound⟩ := s
  cases l with
  | argument name value =>
    simp only [matcher, matchArgument]
    split
    · next v rest hv =>
      obtain ⟨before, after, rfl, rfl, hbefore⟩ := exists_split_of_takePositional? hv
      exact .takesWord hbefore (binds_bindWord name value v.text bound)
    · exact .fails _
  | command name given =>
    simp only [matcher, matchCommand]
    split
    · next v rest hv =>
      split
      · next hname =>
        obtain ⟨before, after, rfl, rfl, hbefore⟩ := exists_split_of_takePositional? hv
        obtain rfl := hname
        exact .takesWord hbefore (.command name given bound)
      · exact .fails _
    · exact .fails _
  | option o =>
    refine acts_matchAllOf _ (isOccurrenceOf_of_not_option o) ?_ _
    intro q p hpq
    exact Opt.sameNames_congr hpq o
  | anyOptions => exact acts_matchAllOf _ (fun _ hm => hm) (fun _ _ _ => rfl) _

/-! ## The rules -/

/-- **`Recorded slots ws bound bound'`**: from `bound` to `bound'` there is one change for each of the
words, in order, each made by one of the leaves `slots`. -/
inductive Recorded (slots : List Leaf) : List String → List Leaf → List Leaf → Prop
  | nil (bound : List Leaf) : Recorded slots [] bound bound
  | cons {l : Leaf} {w : String} {ws : List String} {bound bound' bound'' : List Leaf}
      (hl : l ∈ slots) (hfirst : l.Binds w bound bound')
      (hrest : Recorded slots ws bound' bound'') : Recorded slots (w :: ws) bound bound''

theorem Recorded.append {slots : List Leaf} {ws us : List String} {bound bound' bound'' : List Leaf}
    (h : Recorded slots ws bound bound') (h' : Recorded slots us bound' bound'') :
    Recorded slots (ws ++ us) bound bound'' := by
  induction h with
  | nil bound => exact h'
  | cons hl hfirst _ ih => exact .cons hl hfirst (ih h')

/-- The leaf is neither a positional leaf nor an option. -/
def Leaf.isOther (l : Leaf) : Bool := !l.isPositional && !l.isOption

/-- **`Consumes slots ws s t`**: the way from `s` to `t` takes the words `ws` and some options, and
binds the words with the leaves `slots`. -/
structure Consumes (slots : List Leaf) (ws : List String) (s t : MatchState) : Prop where
  /-- Leaves are taken, and no leaf is moved or put back. -/
  sublist : t.left.Sublist s.left
  /-- The words are the first positional leaves; all others are left. -/
  words : s.left.filter Leaf.isPositional =
    ws.map Leaf.positional ++ t.left.filter Leaf.isPositional
  /-- Of each option all occurrences are left, or none is. -/
  options : ∀ o, t.left.filter (Leaf.isOccurrenceOf o) = s.left.filter (Leaf.isOccurrenceOf o) ∨
    t.left.filter (Leaf.isOccurrenceOf o) = []
  /-- The leaves of any other kind are left. -/
  others : t.left.filter Leaf.isOther = s.left.filter Leaf.isOther
  /-- Each word is bound once. -/
  bindings : Recorded slots ws s.collected t.collected

namespace Consumes

variable {slots : List Leaf} {ws us : List String} {s t u : MatchState}

theorem refl (slots : List Leaf) (s : MatchState) : Consumes slots [] s s where
  sublist := List.Sublist.refl _
  words := rfl
  options := fun _ => Or.inl rfl
  others := rfl
  bindings := .nil _

theorem trans (h : Consumes slots ws s t) (h' : Consumes slots us t u) :
    Consumes slots (ws ++ us) s u where
  sublist := h'.sublist.trans h.sublist
  words := by rw [h.words, h'.words, List.map_append, List.append_assoc]
  options := by
    intro o
    rcases h'.options o with hall | hnone
    · rw [hall]
      exact h.options o
    · exact Or.inr hnone
  others := h'.others.trans h.others
  bindings := h.bindings.append h'.bindings

/-- The first positional leaf is taken by an argument or a command. -/
theorem word {l : Leaf} (hl : l ∈ slots) {before : List Leaf}
    (hbefore : ∀ m ∈ before, m.isPositional = false) (after : List Leaf) {w : String}
    {bound bound' : List Leaf} (hbinds : l.Binds w bound bound') :
    Consumes slots [w] ⟨before ++ .positional w :: after, bound⟩ ⟨before ++ after, bound'⟩ where
  sublist := (List.Sublist.refl before).append (List.sublist_cons_self _ _)
  words := filter_isPositional_split hbefore (.str w) after
  options := by
    intro o
    refine Or.inl ?_
    rw [List.filter_append, List.filter_append]
    rfl
  others := by
    rw [List.filter_append, List.filter_append]
    rfl
  bindings := .cons hl hbinds (.nil _)

/-- All leaves for which a test holds are taken, if only options pass it and options of the same names
pass it alike. -/
theorem occurrences {test : Leaf → Bool} (hoption : ∀ l, l.isOption = false → test l = false)
    (hnames : ∀ o p : Opt, p.sameNames o = true → test (.option p) = test (.option o))
    (s : MatchState) : Consumes slots [] s ⟨s.left.filter fun l => !test l, s.collected⟩ where
  sublist := List.filter_sublist
  words := by
    rw [List.map_nil, List.nil_append, List.filter_filter]
    refine List.filter_congr ?_
    intro l _
    cases l with
    | argument name v => rw [hoption _ rfl, Bool.not_false, Bool.and_true]
    | command name given => rfl
    | option o => rfl
    | anyOptions => rfl
  options := by
    intro o
    rw [List.filter_filter]
    -- the occurrences of `o` pass the test together
    have hsame : ∀ l : Leaf, l.isOccurrenceOf o = true → test l = test (.option o) := by
      intro l hl
      cases l with
      | option p => exact hnames o p hl
      | argument name v => cases hl
      | command name given => cases hl
      | anyOptions => cases hl
    by_cases htest : test (.option o) = true
    · refine Or.inr (List.filter_eq_nil_iff.mpr ?_)
      intro l _ hl
      obtain ⟨hocc, hleft⟩ := Bool.and_eq_true_iff.mp hl
      rw [hsame l hocc, htest] at hleft
      cases hleft
    · refine Or.inl (List.filter_congr ?_)
      intro l _
      by_cases hocc : l.isOccurrenceOf o = true
      · rw [hsame l hocc, Bool.eq_false_iff.mpr htest, Bool.not_false, Bool.and_true]
      · rw [Bool.eq_false_iff.mpr hocc, Bool.false_and]
  others := by
    rw [List.filter_filter]
    refine List.filter_congr ?_
    intro l _
    by_cases hl : l.isOption = true
    · simp [Leaf.isOther, hl]
    · rw [hoption l (Bool.eq_false_iff.mpr hl), Bool.not_false, Bool.and_true]
  bindings := .nil _

end Consumes

/-! ## The step of a leaf -/

/-- The positional leaves among the leaves are words. -/
def PositionalWords (ls : List Leaf) : Prop := ∀ v, .argument none v ∈ ls → ∃ w, v = .str w

theorem PositionalWords.of_sublist {ls ms : List Leaf} (h : PositionalWords ls)
    (hsub : ms.Sublist ls) : PositionalWords ms :=
  fun v hv => h v (hsub.subset hv)

/-- **The step.** A leaf that fits keeps the rules. -/
theorem Leaf.exists_consumes {l : Leaf} {slots : List Leaf} (hl : l ∈ slots) {s : MatchState}
    (hwords : PositionalWords s.left) (hfit : (l.matcher s).matched = true) :
    ∃ ws, Consumes slots ws s (l.matcher s).toMatchState := by
  have hacts := l.acts s
  generalize l.matcher s = o at hacts hfit ⊢
  cases hacts with
  | fails => cases hfit
  | @takesWord before v after bound bound' hbefore hbinds =>
    obtain ⟨w, rfl⟩ := hwords v (List.mem_append_right before List.mem_cons_self)
    exact ⟨[w], .word hl hbefore after hbinds⟩
  | takesOptions hoption hnames _ => exact ⟨[], .occurrences hoption hnames s⟩

/-- **The run.** Leaves that fit one after the other keep the rules. -/
theorem exists_consumes_of_chain? {α : Type} {f : α → Leaf} {slots : List Leaf} {w : List α}
    (hslots : ∀ a ∈ w, f a ∈ slots) {s t : MatchState} (hwords : PositionalWords s.left)
    (hrun : Matcher.chain? (w.map fun a => (f a).matcher) s = some t) :
    ∃ ws, Consumes slots ws s t := by
  induction w generalizing s with
  | nil =>
    obtain rfl := Option.some.inj hrun
    exact ⟨[], .refl slots s⟩
  | cons a w ih =>
    obtain ⟨ha, hw⟩ := List.forall_mem_cons.mp hslots
    simp only [List.map_cons, Matcher.chain?] at hrun
    split at hrun
    · next hfit =>
      obtain ⟨ws, hfirst⟩ := Leaf.exists_consumes ha hwords hfit
      obtain ⟨us, hrest⟩ := ih hw (hwords.of_sublist hfirst.sublist) hrun
      exact ⟨ws ++ us, hfirst.trans hrest⟩
    · cases hrun

/-- **What a match takes.** If a part of a tree fits on leaves whose positional ones are words, then
what is left is a part of the leaves in their order. Of the positional leaves the first ones are
taken. The occurrences of an option are taken together or not at all, and no leaf of another kind is
taken. The bindings are changed once for each word taken, in order, by an argument or a command of the
part. -/
theorem Tree.exists_consumes_of_matchNode (t : Tree) (node : Pattern Nat) {left : List Leaf}
    (hwords : PositionalWords left) (collected : List Leaf)
    (h : (t.matchNode node left collected).matched = true) :
    ∃ ws, Consumes (t.resolve node).flat ws ⟨left, collected⟩
      (t.matchNode node left collected).toMatchState := by
  obtain ⟨w, hw, hrun⟩ := node.follows_matcher t.leafAt ⟨left, collected⟩ h
  refine exists_consumes_of_chain? ?_ hwords hrun
  intro i hi
  rw [resolve, Pattern.flat_map]
  exact List.mem_map_of_mem (Pattern.mem_flat_of_mem_words hw hi)

/-- A tree for `(-q | -v) [go] FILE...`, in which `FILE` collects. -/
def Tree.hauling : Tree :=
  ⟨[.option (.ofShort "-q"), .option (.ofShort "-v"), .keyword "go", .argument (some "FILE") (.list [])],
    .required [.either [.leaf 0, .leaf 1], .optional [.leaf 2], .oneOrMore (.leaf 3)]⟩

/-- Both occurrences of `-q` and all words are taken. Left are an option that lost the choice and a leaf
that is no part of an invocation. Of the bindings made before, the list of `FILE` has grown by the last
two words; the word before them is bound as a command behind it. -/
theorem Tree.exists_consumes_of_hauling :
    let left : List Leaf := [.option (.ofShort "-q"), .positional "go", .option (.ofShort "-v"),
      .keyword "go", .positional "a", .option ((Opt.ofShort "-q").given (.bool true)),
      .positional "b"]
    let bound : List Leaf := [.argument (some "FILE") (.list ["z"]), .argument (some "N") (.str "1")]
    PositionalWords left ∧
    hauling.matchNode hauling.root left bound =
      .success ⟨[.option (.ofShort "-v"), .keyword "go"],
        [.argument (some "FILE") (.list ["z", "a", "b"]), .argument (some "N") (.str "1"),
          .command "go" true]⟩ ∧
    ∃ ws, Consumes (hauling.resolve hauling.root).flat ws ⟨left, bound⟩
      (hauling.matchNode hauling.root left bound).toMatchState := by
  intro left bound
  have hwords : PositionalWords left := by
    intro v hv
    simp only [left, Leaf.positional, Leaf.keyword, List.mem_cons, Leaf.argument.injEq, true_and,
      List.not_mem_nil, or_false, reduceCtorEq, false_or] at hv
    rcases hv with rfl | rfl | rfl
    · exact ⟨_, rfl⟩
    · exact ⟨_, rfl⟩
    · exact ⟨_, rfl⟩
  have hmatch : hauling.matchNode hauling.root left bound =
      .success ⟨[.option (.ofShort "-v"), .keyword "go"],
        [.argument (some "FILE") (.list ["z", "a", "b"]), .argument (some "N") (.str "1"),
          .command "go" true]⟩ := by cbv
  exact ⟨hwords, hmatch, Tree.exists_consumes_of_matchNode hauling hauling.root hwords bound
    (congrArg Outcome.matched hmatch)⟩

/-! ## Every leaf that fits takes something -/

theorem Leaf.length_left_matcher_lt {l : Leaf} {s : MatchState} (hfit : (l.matcher s).matched = true) :
    (l.matcher s).left.length < s.left.length := by
  have hacts := l.acts s
  generalize l.matcher s = o at hacts hfit ⊢
  cases hacts with
  | fails => cases hfit
  | @takesWord before v after bound bound' _ _ =>
    show (before ++ after).length < (before ++ .argument none v :: after).length
    simp only [List.length_append, List.length_cons]
    omega
  | @takesOptions test _ _ _ hany =>
    obtain ⟨m, hm, htest⟩ := List.any_eq_true.mp hany
    refine List.length_filter_lt_length_iff_exists.mpr ⟨m, hm, ?_⟩
    rw [htest]
    exact Bool.false_ne_true

theorem eq_or_length_lt_of_chain? {α : Type} {f : α → Leaf} {w : List α} {s t : MatchState}
    (hrun : Matcher.chain? (w.map fun a => (f a).matcher) s = some t) :
    t = s ∨ t.left.length < s.left.length := by
  induction w generalizing s with
  | nil => exact Or.inl (Option.some.inj hrun).symm
  | cons a w ih =>
    simp only [List.map_cons, Matcher.chain?] at hrun
    split at hrun
    · next hfit =>
      have hfirst := Leaf.length_left_matcher_lt hfit
      rcases ih hrun with rfl | hrest
      · exact Or.inr hfirst
      · exact Or.inr (hrest.trans hfirst)
    · cases hrun

/-- **`m.Progresses`**: whenever `m` fits, it has taken a leaf or has done nothing at all; then it ends
in the very state that it was given, bindings included. -/
def Matcher.Progresses (m : Matcher) : Prop :=
  ∀ s, (m s).matched = true → (m s).toMatchState = s ∨ (m s).left.length < s.left.length

theorem Pattern.progresses_matcher {α : Type} (f : α → Leaf) (p : Pattern α) :
    (p.map f).matcher.Progresses := by
  intro s h
  obtain ⟨w, -, hrun⟩ := p.follows_matcher f s h
  exact eq_or_length_lt_of_chain? hrun

/-! ## A match that fails -/

theorem Outcome.eq_failure {o : Outcome} {s : MatchState} (hmatched : o.matched = false)
    (hstate : o.toMatchState = s) : o = .failure s := by
  show Outcome.mk o.toMatchState o.matched = ⟨s, false⟩
  rw [hmatched, hstate]

theorem Leaf.matcher_of_not_matched {l : Leaf} {s : MatchState}
    (h : (l.matcher s).matched = false) : l.matcher s = .failure s := by
  have hacts := l.acts s
  generalize l.matcher s = o at hacts h ⊢
  cases hacts with
  | fails => rfl
  | takesWord => cases h
  | takesOptions => cases h

/-- A pattern that fails hands back the state that it was given. Each group sees to that by itself, so
nothing has to be known of its children. -/
theorem Pattern.matcher_of_not_matched {p : Pattern Leaf} {s : MatchState}
    (h : (p.matcher s).matched = false) : p.matcher s = .failure s := by
  cases p with
  | leaf l => exact Leaf.matcher_of_not_matched h
  | required ps => exact Outcome.eq_failure h (Matcher.state_all_of_not_matched h)
  | optional ps => cases h
  | either ps => exact Matcher.fewest_of_not_matched h
  | oneOrMore p => exact Outcome.eq_failure h (Matcher.state_many_of_not_matched h)

/-- **A match that fails is invisible.** Whatever part of a tree fails, the leaves and the bindings are
exactly those that it was given. -/
theorem Tree.matchNode_of_not_matched (t : Tree) (node : Pattern Nat) (left collected : List Leaf)
    (h : (t.matchNode node left collected).matched = false) :
    (t.matchNode node left collected).left = left ∧
      (t.matchNode node left collected).collected = collected := by
  rw [matchNode, Pattern.matcher_of_not_matched h]
  exact ⟨rfl, rfl⟩

/-- The choice takes an option, the repetition a word and a command in its first round, and then the last
command finds no word. -/
theorem Tree.matchNode_of_not_matched_hauling :
    let node : Pattern Nat := .required
      [.either [.leaf 0, .leaf 1], .oneOrMore (.required [.leaf 3, .leaf 2]), .leaf 2]
    let left : List Leaf := [.positional "a", .option (.ofShort "-v"), .positional "go"]
    let bound : List Leaf := [.argument (some "FILE") (.list ["z"])]
    (hauling.matchNode node left bound).matched = false ∧
      (hauling.matchNode node left bound).left = left ∧
      (hauling.matchNode node left bound).collected = bound := by
  intro node left bound
  have h : (hauling.matchNode node left bound).matched = false := by cbv
  exact ⟨h, Tree.matchNode_of_not_matched hauling node left bound h⟩

end Synopsis
