import Synopsis.Interface
import Synopsis.Proofs.Brackets
import Synopsis.Proofs.Choices
import Synopsis.Proofs.Composition

/-!
# Lines that are joined with bars

The lines of a usage section become one pattern with bars between them. Each line is read there as
it is read on its own (`Draft.run_inside`), its slots behind those of the lines before it, and
closing the level makes a choice of all alternatives that are not empty. So the joined pattern takes
exactly the invocations that one of the lines takes, a line that asks for nothing excepted
(`isComplete_joined_iff`). Such a line is dropped: unless all are like it, it does not count
(`empty_line_is_dropped`).
-/

namespace Synopsis

open Pattern (shiftAll)

/-! ## What the alternatives of a level take -/

namespace Tree

/-- **`t.Completes p left`**: the part `p` of the tree fits and takes all of the leaves. -/
def Completes (t : Tree) (p : Pattern Nat) (left : List Leaf) : Prop :=
  (t.matchNode p left []).isComplete = true

variable {t : Tree} {left : List Leaf}

theorem completes_required_iff {ps : List (Pattern Nat)} :
    t.Completes (.required ps) left ↔
      ∃ s, Matcher.chain? (ps.map fun p => (t.resolve p).matcher) ⟨left, []⟩ = some s ∧
        s.left = [] := by
  rw [← matchers_resolve]
  exact Matcher.isComplete_all_iff

theorem completes_nil_iff : t.Completes (.required []) left ↔ left = [] := by
  simp [completes_required_iff, Matcher.chain?]

theorem completes_singleton_iff {p : Pattern Nat} :
    t.Completes (.required [p]) left ↔ t.Completes p left := by
  rw [completes_required_iff]
  exact Matcher.isComplete_iff_chain?.symm

theorem completes_either_iff {ps : List (Pattern Nat)} :
    t.Completes (.either ps) left ↔ ∃ p ∈ ps, t.Completes p left := by
  have hfewest : t.Completes (.either ps) left ↔
      ∃ m ∈ ps.map fun p => (t.resolve p).matcher, (m ⟨left, []⟩).isComplete = true := by
    rw [← matchers_resolve]
    exact Matcher.isComplete_fewest_iff
  rw [hfewest]
  constructor
  · rintro ⟨m, hm, hcomplete⟩
    obtain ⟨p, hp, rfl⟩ := List.mem_map.mp hm
    exact ⟨p, hp, hcomplete⟩
  · rintro ⟨p, hp, hcomplete⟩
    exact ⟨_, List.mem_map_of_mem hp, hcomplete⟩

end Tree

namespace Level

variable {t : Tree} {left : List Leaf}

theorem completes_asAlternative_iff (ps : List (Pattern Nat)) :
    t.Completes (.required ps) left ↔
      (∃ p ∈ asAlternative ps, t.Completes p left) ∨ (asAlternative ps = [] ∧ left = []) := by
  match ps with
  | [] => simp [asAlternative, Tree.completes_nil_iff]
  | [p] => simp [asAlternative, Tree.completes_singleton_iff]
  | p :: q :: ps => simp [asAlternative]

theorem completes_chosen_iff (ps : List (Pattern Nat)) :
    t.Completes (.required (chosen ps)) left ↔
      (∃ p ∈ ps, t.Completes p left) ∨ (ps = [] ∧ left = []) := by
  match ps with
  | [] => simp [chosen, Tree.completes_nil_iff]
  | [p] => simp [chosen, Tree.completes_singleton_iff]
  | p :: q :: ps => simp [chosen, Tree.completes_singleton_iff, Tree.completes_either_iff]

theorem alternatives_of_no_bar {l : Level} (h : l.finished = []) :
    l.alternatives = asAlternative l.current := by
  rw [alternatives, h, List.nil_append, List.flatMap_singleton]

/-- A closed level takes what one of its alternatives takes; with no alternative it takes nothing. -/
theorem completes_close_iff (l : Level) :
    t.Completes (.required l.close) left ↔
      (∃ p ∈ l.alternatives, t.Completes p left) ∨ (l.alternatives = [] ∧ left = []) := by
  by_cases hfinished : l.finished = []
  · rw [close_of_no_bar hfinished, alternatives_of_no_bar hfinished]
    exact completes_asAlternative_iff l.current
  · rw [close_of_bar hfinished]
    exact completes_chosen_iff l.alternatives

theorem close_eq_nil_iff (l : Level) : l.close = [] ↔ l.alternatives = [] := by
  by_cases hfinished : l.finished = []
  · rw [close_of_no_bar hfinished, alternatives_of_no_bar hfinished]
    match l.current with
    | [] => simp [asAlternative]
    | [p] => simp [asAlternative]
    | p :: q :: ps => simp [asAlternative]
  · rw [close_of_bar hfinished]
    match l.alternatives with
    | [] => simp [chosen]
    | [p] => simp [chosen]
    | p :: q :: ps => simp [chosen]

theorem alternatives_after (l before : Level) :
    (l.after before).alternatives = before.finished.flatMap asAlternative ++ l.alternatives := by
  rw [alternatives, after, List.append_assoc, List.flatMap_append]
  rfl

theorem flatMap_startAlternative (l : Level) :
    l.startAlternative.finished.flatMap asAlternative = l.alternatives := rfl

end Level

/-! ## A line among others -/

/-- A part of a tree means the same over slots that have others around them. -/
theorem Tree.resolve_shift {t u : Tree} {before after : List Leaf}
    (ht : t.slots = before ++ u.slots ++ after) {p : Pattern Nat}
    (hp : ∀ i ∈ p.flat, i < u.slots.length) : t.resolve (p.shift before.length) = u.resolve p := by
  rw [resolve, Pattern.shift, Pattern.map_map]
  refine Pattern.map_congr fun i hi => ?_
  have hlt := hp i hi
  show t.slots.getD (before.length + i) .anyOptions = u.slots.getD i .anyOptions
  rw [ht, List.append_assoc, List.getD_append_right _ _ _ _ (Nat.le_add_right _ _),
    Nat.add_sub_cancel_left, List.getD_append _ _ _ _ hlt]

/-- **`u.AsksNothing`**: nothing is required and nothing may be given. -/
def Tree.AsksNothing (u : Tree) : Prop := u.root = .required []

theorem alternatives_eq_nil_iff {u : Tree} {l : Level} (hu : u.root = .required l.close) :
    l.alternatives = [] ↔ u.AsksNothing := by
  rw [← Level.close_eq_nil_iff, Tree.AsksNothing, hu]
  constructor
  · intro hclose
    rw [hclose]
  · exact Pattern.required.inj

/-- The alternatives of a line take, over slots with others around them, what the line takes on its
own. -/
theorem exists_completes_shiftAll_iff {u : Tree} {l : Level} (hu : u.root = .required l.close)
    (hrange : u.InRange) {t : Tree} {before after : List Leaf}
    (ht : t.slots = before ++ u.slots ++ after) (left : List Leaf) :
    (∃ p ∈ shiftAll before.length l.alternatives, t.Completes p left) ↔
      ¬ u.AsksNothing ∧ (u.matchLeaves left).isComplete = true := by
  have hshift : ∀ p ∈ l.alternatives,
      (t.Completes (p.shift before.length) left ↔ u.Completes p left) := by
    intro p hp
    have hflat : ∀ i ∈ p.flat, i < u.slots.length := by
      intro i hi
      apply hrange i
      rw [hu]
      show i ∈ Pattern.flatAll l.close
      rw [Level.flatAll_close, ← Level.flatAll_alternatives]
      exact Pattern.mem_flatAll.mpr ⟨p, hp, hi⟩
    rw [Tree.Completes, Tree.matchNode, Tree.resolve_shift ht hflat]
    rfl
  have hline : (u.matchLeaves left).isComplete = true ↔
      (∃ p ∈ l.alternatives, u.Completes p left) ∨ (l.alternatives = [] ∧ left = []) := by
    rw [← Level.completes_close_iff, ← hu]
    rfl
  rw [hline, ← alternatives_eq_nil_iff hu]
  constructor
  · rintro ⟨q, hq, hcomplete⟩
    obtain ⟨p, hp, rfl⟩ := List.mem_map.mp hq
    exact ⟨List.ne_nil_of_mem hp, Or.inl ⟨p, hp, (hshift p hp).mp hcomplete⟩⟩
  · rintro ⟨hne, ⟨p, hp, hcomplete⟩ | ⟨hnil, -⟩⟩
    · exact ⟨_, List.mem_map_of_mem hp, (hshift p hp).mpr hcomplete⟩
    · exact absurd hnil hne

/-- **`t.Offers ps us`**: the parts `ps` of the tree take together what the lines `us` take on their
own, and there are none if no line asks for anything. -/
structure Tree.Offers (t : Tree) (ps : List (Pattern Nat)) (us : List Tree) : Prop where
  nothing : ps = [] ↔ ∀ u ∈ us, u.AsksNothing
  completes : ∀ left, (∃ p ∈ ps, t.Completes p left) ↔
    ∃ u ∈ us, ¬ u.AsksNothing ∧ (u.matchLeaves left).isComplete = true

theorem Tree.offers_nil (t : Tree) : t.Offers [] [] where
  nothing := by simp
  completes := by simp

theorem Tree.Offers.cons {t u : Tree} {ps : List (Pattern Nat)} {us : List Tree} (h : t.Offers ps us)
    {l : Level} (hu : u.root = .required l.close) (hrange : u.InRange) {before : List Leaf}
    (ht : before ++ u.slots <+: t.slots) :
    t.Offers (shiftAll before.length l.alternatives ++ ps) (u :: us) where
  nothing := by
    rw [List.append_eq_nil_iff, shiftAll, List.map_eq_nil_iff, alternatives_eq_nil_iff hu, h.nothing,
      List.forall_mem_cons]
  completes := by
    intro left
    obtain ⟨after, hafter⟩ := ht
    have hline := exists_completes_shiftAll_iff hu hrange hafter.symm left
    simp only [List.mem_append, or_and_right, exists_or, hline, h.completes, List.exists_mem_cons_iff]

/-! ## Joining the lines -/

theorem tokenize_join (s rest : String) :
    tokenize (s ++ " | " ++ rest) = tokenize s ++ "|" :: tokenize rest := by
  have htext : s ++ " | " ++ rest = s ++ (" " ++ ("|" ++ (" " ++ rest))) := by
    have hbar : " | " = " " ++ ("|" ++ " ") := rfl
    simp only [hbar, String.append_assoc]
  have hblank : (" " ++ ("|" ++ (" " ++ rest))).toList = ' ' :: ("|" ++ (" " ++ rest)).toList := by
    rw [String.toList_append]
    rfl
  rw [htext, tokenize_append hblank (Or.inl (by decide)), tokenize_blank (c := ' ') rfl (by decide),
    tokenize_delimiter (c := '|') rfl (by decide), tokenize_blank (c := ' ') rfl (by decide)]

/-- **`LinesRead r ss ts`**: the lines `ss` are read on their own as the trees `ts`, and register
nothing. -/
def LinesRead (r : Registry) : List String → List Tree → Prop :=
  List.Forall₂ fun s t => parsePattern r s = ⟨.ok t, r⟩

/-- A line is read where an alternative starts, up to what follows it. -/
theorem run_line {r : Registry} {s : String} {u : Tree} (hu : parsePattern r s = ⟨.ok u, r⟩)
    {base : Draft} (hmode : base.mode = .grammar) (hregistry : base.registry = r)
    (hcurrent : base.level.current = []) {tail : List String} (htail : Tree.Starts tail) :
    ∃ l : Level, u.root = .required l.close ∧
      base.run (tokenize s ++ tail) =
        Draft.run ⟨.grammar, base.slots ++ u.slots, r, base.outer,
          (l.shift base.slots.length).after base.level⟩ tail := by
  rw [parsePattern_eq_run] at hu
  obtain ⟨l, hl, hrun⟩ := Draft.run_inside base htail hu
  rw [Draft.start_inside hmode hregistry hcurrent] at hrun
  exact ⟨l, hl, hrun⟩

/-- Lines that are joined with bars are read where an alternative starts. Their alternatives come
behind those that are there, and take what the lines take. -/
theorem run_joined {r : Registry} {ss : List String} {ts : List Tree} (h : LinesRead r ss ts)
    (hss : ss ≠ []) {base : Draft} (hmode : base.mode = .grammar) (hregistry : base.registry = r)
    (houter : base.outer = []) (hcurrent : base.level.current = []) :
    ∃ (t : Tree) (l : Level) (new : List (Pattern Nat)),
      base.run (tokenize (" | ".intercalate ss)) = ⟨.ok t, r⟩ ∧ base.slots <+: t.slots ∧
        t.root = .required l.close ∧
        l.alternatives = base.level.finished.flatMap Level.asAlternative ++ new ∧
        t.Offers new ts := by
  induction h generalizing base with
  | nil => exact absurd rfl hss
  | @cons s u ss ts hu hrest ih =>
    have hrange : u.InRange := inRange_of_parsePattern (congrArg Parsed.outcome hu)
    cases ss with
    | nil =>
      obtain rfl : ts = [] := by
        cases hrest
        rfl
      have hend : Tree.Starts [] := ⟨by decide, by decide⟩
      obtain ⟨l, hl, hrun⟩ := run_line hu hmode hregistry hcurrent hend
      let level := (l.shift base.slots.length).after base.level
      refine ⟨⟨base.slots ++ u.slots, .required level.close⟩, level, _, ?_, List.prefix_append _ _, rfl,
        ?_, (Tree.offers_nil _).cons hl hrange List.prefix_rfl⟩
      · rw [String.intercalate_singleton, ← List.append_nil (tokenize s), hrun, Draft.run_nil, houter]
        rfl
      · rw [Level.alternatives_after, Level.alternatives_shift, List.append_nil]
    | cons s' ss =>
      have hbar : Tree.Starts ("|" :: tokenize (" | ".intercalate (s' :: ss))) :=
        Tree.starts_cons (by decide) _
      obtain ⟨l, hl, hrun⟩ := run_line hu hmode hregistry hcurrent hbar
      -- the bar ends the alternative under way, and the other lines are read from there
      let next : Draft := ⟨.grammar, base.slots ++ u.slots, r, base.outer,
        ((l.shift base.slots.length).after base.level).startAlternative⟩
      obtain ⟨t, level, new, hread, hslots, hroot, halternatives, hoffers⟩ :=
        ih (List.cons_ne_nil s' ss) (show next.mode = .grammar from rfl) rfl houter rfl
      refine ⟨t, level, _, ?_, ?_, hroot, ?_, hoffers.cons hl hrange hslots⟩
      · rw [String.intercalate_cons_cons, tokenize_join, hrun, ← hread]
        exact Draft.run_of_advance rfl
      · exact (List.prefix_append _ _).trans hslots
      · rw [halternatives, Level.flatMap_startAlternative, Level.alternatives_after,
          Level.alternatives_shift, List.append_assoc]

/-- Joined lines are read, and take what one of the lines takes. -/
theorem LinesRead.exists_joined {r : Registry} {ss : List String} {ts : List Tree}
    (h : LinesRead r ss ts) :
    ∃ t, parsePattern r (" | ".intercalate ss) = ⟨.ok t, r⟩ ∧ ∀ left,
      ((t.matchLeaves left).isComplete = true ↔
        (∃ u ∈ ts, ¬ u.AsksNothing ∧ (u.matchLeaves left).isComplete = true) ∨
          ((∀ u ∈ ts, u.AsksNothing) ∧ left = [])) := by
  by_cases hss : ss = []
  · subst hss
    obtain rfl : ts = [] := by
      cases h
      rfl
    refine ⟨.empty, Draft.run_nil _, ?_⟩
    intro left
    have hempty : (Tree.empty.matchLeaves left).isComplete = true ↔ left = [] :=
      Tree.completes_nil_iff
    simp [hempty]
  · obtain ⟨t, l, new, hread, -, hroot, halternatives, hoffers⟩ :=
      run_joined h hss (show (Draft.start .grammar r).mode = .grammar from rfl) rfl rfl rfl
    refine ⟨t, hread, ?_⟩
    intro left
    have hnew : l.alternatives = new := halternatives
    have hline : (t.matchLeaves left).isComplete = true ↔ t.Completes (.required l.close) left := by
      rw [← hroot]
      rfl
    rw [hline, Level.completes_close_iff, hnew, hoffers.completes, hoffers.nothing]

/-- **Lines that ask for something all count.** Take any lines without options, each of which is
read on its own; they may have bars of their own. Joined with bars they are read, too, and the
joined pattern takes an invocation if and only if one of the lines does that asks for something, or
no line asks for anything and nothing is given. -/
theorem isComplete_joined_iff {r : Registry} {ss : List String} {ts : List Tree}
    (hwords : ∀ s ∈ ss, ∀ token ∈ tokenize s,
      token.toList.head? = some '-' → token = "-" ∨ token = "--")
    (hread : List.Forall₂ (fun s t => (parsePattern r s).outcome = .ok t) ss ts) :
    ∃ t, parsePattern r (" | ".intercalate ss) = ⟨.ok t, r⟩ ∧ ∀ left,
      ((t.matchLeaves left).isComplete = true ↔
        (∃ u ∈ ts, ¬ u.AsksNothing ∧ (u.matchLeaves left).isComplete = true) ∨
          ((∀ u ∈ ts, u.AsksNothing) ∧ left = [])) := by
  have hregistry : ∀ s ∈ ss, (parsePattern r s).registry = r := by
    intro s hs
    have hrun := (Draft.start .grammar r).run_of_no_options (tokenize s) fun token htoken =>
      not_isOptionToken (hwords s hs token htoken)
    exact hrun.1
  have hlines : LinesRead r ss ts := by
    refine ((List.forall₂_and_left _ _).mpr ⟨hregistry, hread⟩).imp ?_
    rintro s t ⟨hregistry, houtcome⟩
    show (⟨(parsePattern r s).outcome, (parsePattern r s).registry⟩ : Parsed) = ⟨.ok t, r⟩
    rw [houtcome, hregistry]
  exact hlines.exists_joined

/-- Of the three lines the second asks for nothing. That the joined pattern takes the empty
invocation is due to the third, which asks for something that may be left out. -/
theorem isComplete_joined_sample :
    let ss := ["add FILE", "", "[stop]"]
    let ts : List Tree := [⟨[.keyword "add", .placeholder "FILE"], .required [.leaf 0, .leaf 1]⟩, .empty,
      ⟨[.keyword "stop"], .required [.optional [.leaf 0]]⟩]
    (∀ s ∈ ss, ∀ token ∈ tokenize s, token.toList.head? = some '-' → token = "-" ∨ token = "--") ∧
    List.Forall₂ (fun s t => (parsePattern [] s).outcome = .ok t) ss ts ∧
    ∃ t, parsePattern [] (" | ".intercalate ss) = ⟨.ok t, []⟩ ∧
      (t.matchLeaves [.positional "add", .positional "x"]).isComplete = true ∧
      (t.matchLeaves []).isComplete = true ∧ (t.matchLeaves [.positional "x"]).isComplete ≠ true := by
  intro ss ts
  have hwords : ∀ s ∈ ss, ∀ token ∈ tokenize s,
      token.toList.head? = some '-' → token = "-" ∨ token = "--" := by
    have htokens : ss.map tokenize = [["add", "FILE"], [], ["[", "stop", "]"]] := by cbv
    have hall : ∀ tokens ∈ ss.map tokenize, ∀ token ∈ tokens,
        token.toList.head? = some '-' → token = "-" ∨ token = "--" := by
      rw [htokens]
      decide
    exact fun s hs => hall _ (List.mem_map_of_mem hs)
  have hread : List.Forall₂ (fun s t => (parsePattern [] s).outcome = .ok t) ss ts := by
    have hlines : LinesRead [] ss ts :=
      .cons (parsePattern_of_runWithin rfl) (.cons (parsePattern_of_runWithin rfl)
        (.cons (parsePattern_of_runWithin rfl) .nil))
    exact hlines.imp fun _ _ hline => congrArg Parsed.outcome hline
  obtain ⟨t, hjoined, htakes⟩ := isComplete_joined_iff hwords hread
  refine ⟨hwords, hread, t, hjoined, ?_, ?_, ?_⟩
  · rw [htakes]
    exact Or.inl ⟨_, List.mem_cons_self, by simp [Tree.AsksNothing], by cbv⟩
  · rw [htakes]
    exact Or.inl ⟨_, List.mem_of_getElem? (i := 2) rfl, by simp [Tree.AsksNothing], by cbv⟩
  · rw [ne_eq, htakes]
    have hnone : ∀ u ∈ ts, (u.matchLeaves [.positional "x"]).isComplete = false := by
      simp only [ts, List.forall_mem_cons]
      exact ⟨by cbv, by cbv, by cbv, by simp⟩
    rintro (⟨u, hu, -, hcomplete⟩ | ⟨-, hnil⟩)
    · rw [hnone u hu] at hcomplete
      cases hcomplete
    · cases hnil

/-- **A line that asks for nothing is dropped.** On its own it takes the empty invocation; joined
with a line that asks for a command it does not count, and the empty invocation fits neither the
joined pattern nor the usage. -/
theorem empty_line_is_dropped :
    let t : Tree := ⟨[.keyword "add"], .required [.leaf 0]⟩
    parsePattern [] "" = ⟨.ok .empty, []⟩ ∧ parsePattern [] "add" = ⟨.ok t, []⟩ ∧
    (Tree.empty.matchLeaves []).isComplete = true ∧
    parsePattern [] (" | ".intercalate ["", "add"]) = ⟨.ok t, []⟩ ∧
    (t.matchLeaves []).isComplete = false ∧
    parseInvocation "usage: prog\n prog add" [] = .error (.noMatch "usage: prog\n prog add") := by
  intro t
  refine ⟨?_, ?_, ?_, ?_, ?_, ?_⟩
  · exact parsePattern_of_runWithin rfl
  · exact parsePattern_of_runWithin rfl
  · cbv
  · exact parsePattern_of_runWithin rfl
  · cbv
  · cbv

end Synopsis
