import Synopsis.Proofs.Report
import Synopsis.Proofs.Simulation

/-!
# Options anywhere and in any order

Leaves of two invocations are shuffled if their positional leaves are the same in the same order and
their option occurrences are the same in some order (`Shuffled`). No matcher can tell shuffled leaves
apart: an argument or a command looks at the first positional leaf only, an option takes all its
occurrences wherever they stand, and groups count what is left (`agree_leaf`, `shuffled_matchNode`).

For the bindings the order of the occurrences matters as far as the last one of each name is reported.
So two invocations have the same result if their words are the same, and for each option name the
occurrences of that name are the same in order.
-/

namespace Synopsis

/-! ## Shuffled leaves -/

/-- **`Shuffled ls ms`**: both are made of positional leaves and option occurrences; the positional
leaves are the same in the same order, the occurrences are the same in some order. -/
structure Shuffled (ls ms : List Leaf) : Prop where
  left : ∀ l ∈ ls, l.isPositional = true ∨ l.isOption = true
  right : ∀ l ∈ ms, l.isPositional = true ∨ l.isOption = true
  words : ls.filter Leaf.isPositional = ms.filter Leaf.isPositional
  options : (occurrences ls).Perm (occurrences ms)

theorem length_eq_filter_add {ls : List Leaf}
    (h : ∀ l ∈ ls, l.isPositional = true ∨ l.isOption = true) :
    ls.length = (ls.filter Leaf.isPositional).length + (occurrences ls).length := by
  induction ls with
  | nil => rfl
  | cons l ls ih =>
    have hls := ih fun m hm => h m (List.mem_cons_of_mem _ hm)
    rw [List.length_cons, hls]
    rcases h l List.mem_cons_self with hpos | hopt
    · have hocc : occurrences (l :: ls) = occurrences ls := by
        cases l with
        | argument name v => rfl
        | command name given => rfl
        | option o => cases hpos
        | anyOptions => rfl
      rw [List.filter_cons_of_pos hpos, hocc, List.length_cons]
      omega
    · cases l with
      | option o =>
        rw [occurrences_option, List.length_cons, List.filter_cons_of_neg Bool.false_ne_true]
        omega
      | argument name v => cases hopt
      | command name given => cases hopt
      | anyOptions => cases hopt

theorem Shuffled.length_eq {ls ms : List Leaf} (h : Shuffled ls ms) : ls.length = ms.length := by
  rw [length_eq_filter_add h.left, length_eq_filter_add h.right, h.words, h.options.length_eq]

/-! ## Taking the first positional leaf -/

theorem takePositional?_eq_none_iff {ls : List Leaf} :
    takePositional? ls = none ↔ ls.filter Leaf.isPositional = [] := by
  fun_induction takePositional? ls with
  | case1 => simp
  | case2 v ls => simp [Leaf.isPositional]
  | case3 l ls hl ih =>
    have hpos : ¬ l.isPositional = true := Bool.eq_false_iff.mp (isPositional_of_ne hl)
    rw [Option.map_eq_none_iff, ih, List.filter_cons_of_neg hpos]

/-- The leaf taken is the first positional one; nothing else is gone. -/
theorem takePositional?_views {ls rest : List Leaf} {v : Value}
    (h : takePositional? ls = some (v, rest)) :
    rest.Sublist ls ∧
      ls.filter Leaf.isPositional = .argument none v :: rest.filter Leaf.isPositional ∧
      occurrences rest = occurrences ls := by
  obtain ⟨before, after, rfl, rfl, hbefore⟩ := exists_split_of_takePositional? h
  refine ⟨(List.Sublist.refl before).append (List.sublist_cons_self _ _),
    filter_isPositional_split hbefore v after, ?_⟩
  rw [occurrences, occurrences, List.filterMap_append, List.filterMap_append]
  rfl

/-- From shuffled leaves the same positional leaf is taken, and what stays is shuffled. -/
theorem Shuffled.rel_takePositional? {ls ms : List Leaf} (h : Shuffled ls ms) :
    Option.Rel (fun r q => r.1 = q.1 ∧ Shuffled r.2 q.2) (takePositional? ls)
      (takePositional? ms) := by
  cases hls : takePositional? ls with
  | none =>
    rw [takePositional?_eq_none_iff, h.words, ← takePositional?_eq_none_iff] at hls
    rw [hls]
    exact .none
  | some r =>
    obtain ⟨v, rest⟩ := r
    obtain ⟨hsub, hwords, hocc⟩ := takePositional?_views hls
    cases hms : takePositional? ms with
    | none =>
      rw [takePositional?_eq_none_iff, ← h.words, hwords] at hms
      cases hms
    | some q =>
      obtain ⟨u, rest'⟩ := q
      obtain ⟨hsub', hwords', hocc'⟩ := takePositional?_views hms
      have hheads : Leaf.argument none v :: rest.filter Leaf.isPositional =
          .argument none u :: rest'.filter Leaf.isPositional := by
        rw [← hwords, ← hwords', h.words]
      obtain ⟨hfirst, hrest⟩ := List.cons.inj hheads
      refine .some ⟨(Leaf.argument.inj hfirst).2, ?_⟩
      exact
        { left := fun l hl => h.left l (hsub.subset hl)
          right := fun l hl => h.right l (hsub'.subset hl)
          words := hrest
          options := by
            rw [hocc, hocc']
            exact h.options }

/-! ## Taking occurrences -/

/-- A test that only options pass looks at the occurrences only. -/
theorem any_eq_any_occurrences {test : Leaf → Bool}
    (htest : ∀ l, l.isOption = false → test l = false) (ls : List Leaf) :
    ls.any test = (occurrences ls).any fun o => test (.option o) := by
  induction ls with
  | nil => rfl
  | cons l ls ih =>
    rw [List.any_cons, ih]
    cases l with
    | option o => rw [occurrences_option, List.any_cons]
    | argument name v => rw [htest _ rfl, Bool.false_or]; rfl
    | command name given => rw [htest _ rfl, Bool.false_or]; rfl
    | anyOptions => rw [htest _ rfl, Bool.false_or]; rfl

theorem Shuffled.any_eq {test : Leaf → Bool} (htest : ∀ l, l.isOption = false → test l = false)
    {ls ms : List Leaf} (h : Shuffled ls ms) : ls.any test = ms.any test := by
  rw [any_eq_any_occurrences htest, any_eq_any_occurrences htest, h.options.any_eq]

theorem Shuffled.filter_not {test : Leaf → Bool}
    (htest : ∀ l, l.isOption = false → test l = false) {ls ms : List Leaf} (h : Shuffled ls ms) :
    Shuffled (ls.filter fun l => !test l) (ms.filter fun l => !test l) where
  left := fun l hl => h.left l (List.mem_filter.mp hl).1
  right := fun l hl => h.right l (List.mem_filter.mp hl).1
  words := by
    -- no positional leaf passes the test
    have hkeep : ∀ ks : List Leaf, (ks.filter fun l => !test l).filter Leaf.isPositional =
        ks.filter Leaf.isPositional := by
      intro ks
      rw [List.filter_filter]
      apply List.filter_congr
      intro l _
      cases l with
      | argument name v => rw [htest _ rfl, Bool.not_false, Bool.and_true]
      | command name given => rfl
      | option o => rfl
      | anyOptions => rfl
    rw [hkeep, hkeep, h.words]
  options := by
    rw [occurrences_filter_not, occurrences_filter_not]
    exact h.options.filter _

/-! ## Matching -/

/-- The states differ by a shuffle of what is left, and not in what is bound. -/
def MatchState.Shuffled (s t : MatchState) : Prop :=
  Synopsis.Shuffled s.left t.left ∧ s.collected = t.collected

theorem agree_matchAllOf {test : Leaf → Bool} (htest : ∀ l, l.isOption = false → test l = false) :
    Matcher.Agree MatchState.Shuffled (matchAllOf test) (matchAllOf test) := by
  rintro s t ⟨hleft, hcollected⟩
  exact ⟨hleft.any_eq htest, hleft.filter_not htest, hcollected⟩

/-- No leaf can tell shuffled leaves apart. -/
theorem agree_leaf (l : Leaf) : Matcher.Agree MatchState.Shuffled l.matcher l.matcher := by
  cases l with
  | argument name value =>
    rintro s t ⟨hleft, hcollected⟩
    have htake := hleft.rel_takePositional?
    simp only [Leaf.matcher, matchArgument, hcollected]
    generalize takePositional? s.left = r, takePositional? t.left = q at htake ⊢
    cases htake with
    | none => exact ⟨rfl, hleft, hcollected⟩
    | @some r q hrq =>
      obtain ⟨v, rest⟩ := r
      obtain ⟨u, rest'⟩ := q
      obtain ⟨rfl, hrest⟩ : v = u ∧ Shuffled rest rest' := hrq
      exact ⟨rfl, hrest, rfl⟩
  | command name given =>
    rintro s t ⟨hleft, hcollected⟩
    have htake := hleft.rel_takePositional?
    simp only [Leaf.matcher, matchCommand, hcollected]
    generalize takePositional? s.left = r, takePositional? t.left = q at htake ⊢
    cases htake with
    | none => exact ⟨rfl, hleft, hcollected⟩
    | @some r q hrq =>
      obtain ⟨v, rest⟩ := r
      obtain ⟨u, rest'⟩ := q
      obtain ⟨rfl, hrest⟩ : v = u ∧ Shuffled rest rest' := hrq
      simp only
      split
      · exact ⟨rfl, hrest, rfl⟩
      · exact ⟨rfl, hleft, hcollected⟩
  | option o => exact agree_matchAllOf (Leaf.isOccurrenceOf_of_not_option o)
  | anyOptions => exact agree_matchAllOf fun _ hm => hm

/-- No part of a tree can tell shuffled leaves apart. -/
theorem Tree.shuffled_matchNode (t : Tree) (node : Pattern Nat) {left left' : List Leaf}
    (h : Shuffled left left') (collected : List Leaf) :
    (t.matchNode node left collected).Alike MatchState.Shuffled
      (t.matchNode node left' collected) :=
  Pattern.agree_matcher (fun _ _ hst => hst.1.length_eq) (fun i _ => agree_leaf (t.leafAt i))
    ⟨left, collected⟩ ⟨left', collected⟩ ⟨h, rfl⟩

/-! ## Invocations with the same words, and the same occurrences of each name -/

/-- Lists of options that have the same options of each name are the same up to order. -/
theorem perm_of_filter_name {os ps : List Opt}
    (h : ∀ name, os.filter (fun o => o.name == name) = ps.filter fun o => o.name == name) :
    os.Perm ps := by
  rw [List.perm_iff_count]
  intro o
  have hcount : ∀ qs : List Opt, qs.count o = (qs.filter fun q => q.name == o.name).count o := by
    intro qs
    rw [List.count_filter]
    exact beq_self_eq_true o.name
  rw [hcount os, hcount ps, h]

theorem filter_isPositional {ls : List Leaf} (h : ∀ l ∈ ls, l.Given) :
    ls.filter Leaf.isPositional = (positionals ls).map Leaf.positional := by
  induction ls with
  | nil => rfl
  | cons l ls ih =>
    have hls := ih fun m hm => h m (List.mem_cons_of_mem _ hm)
    cases h l List.mem_cons_self with
    | word w => rw [positionals_positional, List.map_cons, ← hls]; rfl
    | occurrence o => exact hls

theorem Leaf.Given.positional_or_option {l : Leaf} (h : l.Given) :
    l.isPositional = true ∨ l.isOption = true := by
  cases h with
  | word w => exact Or.inl rfl
  | occurrence o => exact Or.inr rfl

theorem shuffled_of_given {ls ms : List Leaf} (hls : ∀ l ∈ ls, l.Given) (hms : ∀ l ∈ ms, l.Given)
    (hwords : positionals ls = positionals ms)
    (hoptions : (occurrences ls).Perm (occurrences ms)) : Shuffled ls ms where
  left := fun l hl => (hls l hl).positional_or_option
  right := fun l hl => (hms l hl).positional_or_option
  words := by rw [filter_isPositional hls, filter_isPositional hms, hwords]
  options := hoptions

namespace Interface

theorem asksFor_of_not_option (names : List String) :
    ∀ l : Leaf, l.isOption = false → asksFor names l = false := by
  intro l hl
  cases l with
  | option o => cases hl
  | argument name v => rfl
  | command name given => rfl
  | anyOptions => rfl

/-- Shuffled leaves make the same request. -/
theorem request?_eq (i : Interface) {ls ms : List Leaf} (h : Shuffled ls ms) :
    i.request? ls = i.request? ms := by
  rw [request?, request?, h.any_eq (asksFor_of_not_option helpNames),
    h.any_eq (asksFor_of_not_option versionNames)]

/-- What is found under a name depends on the occurrences of that name only. -/
theorem get?_assembled_congr (i : Interface) (known : Registry) {ls ms : List Leaf}
    (collected : List Leaf) {name : String}
    (h : (occurrences ls).filter (fun o => o.name == name) =
      (occurrences ms).filter fun o => o.name == name) :
    (Bindings.empty.insertAll (i.assembled known ls collected)).get? name =
      (Bindings.empty.insertAll (i.assembled known ms collected)).get? name := by
  simp only [Bindings.get?_insertAll, assembled, Bindings.lastValue?_append,
    filterMap_occurrenceBinding?, lastValue?_optionBindings, h]

theorem parse_of_readInvocation {i : Interface} {words : List String} {leaves : List Leaf}
    (h : (readInvocation i.settings.mode i.options words).outcome = .ok leaves) :
    i.parse words =
      i.bindLeaves (readInvocation i.settings.mode i.options words).registry leaves := by
  simp only [parse, h]

/-- Leaves with the same words, and the same occurrences of each name, are bound alike. -/
theorem bindLeaves_eq (i : Interface) {known : Registry} {ls ms : List Leaf}
    (hls : ∀ l ∈ ls, l.Given) (hms : ∀ l ∈ ms, l.Given)
    (hknown : ∀ o ∈ occurrences ls, known.Lists o)
    (hwords : positionals ls = positionals ms)
    (hoptions : ∀ name, (occurrences ls).filter (fun o => o.name == name) =
      (occurrences ms).filter fun o => o.name == name) :
    i.bindLeaves known ls = i.bindLeaves known ms := by
  have hperm := perm_of_filter_name hoptions
  have hshuffled := shuffled_of_given hls hms hwords hperm
  obtain ⟨hmatched, hleft, hcollected⟩ := i.tree.shuffled_matchNode i.tree.root hshuffled []
  have hcomplete : (i.tree.matchLeaves ls).isComplete = (i.tree.matchLeaves ms).isComplete := by
    have hempty : (i.tree.matchLeaves ls).left.isEmpty = (i.tree.matchLeaves ms).left.isEmpty := by
      rw [Bool.eq_iff_iff, List.isEmpty_iff_length_eq_zero, List.isEmpty_iff_length_eq_zero]
      exact hleft.length_eq ▸ Iff.rfl
    rw [Outcome.isComplete, Outcome.isComplete, hempty]
    exact congrArg (· && _) hmatched
  have hbound : (i.tree.matchLeaves ls).collected = (i.tree.matchLeaves ms).collected := hcollected
  rw [bindLeaves, bindLeaves, request?_eq i hshuffled]
  split
  · rfl
  · simp only [← hcomplete, ← hbound]
    split
    · next hfits =>
      -- same keys, since both bind names that are known beforehand, and the same value under each
      obtain ⟨hfits, -⟩ := Matcher.isComplete_iff.mp hfits
      have hnames := Tree.names_collected_subset hls hfits
      have hknown' : ∀ o ∈ occurrences ms, known.Lists o :=
        fun o ho => hknown o (hperm.mem_iff.mpr ho)
      have hkeys := i.keys_assembled hknown hnames
      congr 1
      refine Bindings.eq_of_get? ?_ ?_ ?_
      · rw [hkeys]
        exact nodup_eraseDups _
      · rw [hkeys, i.keys_assembled hknown' hnames]
      · intro key _
        exact i.get?_assembled_congr known _ (hoptions key)
    · rfl

/-- **Options may be given anywhere and in any order.** Where unknown options are faults, two
invocations have the same result, bindings or failure, if they are read into leaves with the same words
in order and, for each option name, the same occurrences of that name in order. For matching alone not
even that order counts: from leaves whose words are the same and whose occurrences are the same in some
order, any part of any tree fits or fails alike, binds alike, and leaves leaves that are so related
again. -/
theorem parse_eq_of_interleaving :
    (∀ i : Interface, i.settings.policy = .reject → ∀ words words' leaves leaves',
      (readInvocation i.settings.mode i.options words).outcome = .ok leaves →
      (readInvocation i.settings.mode i.options words').outcome = .ok leaves' →
      positionals leaves = positionals leaves' →
      (∀ name, (occurrences leaves).filter (fun o => o.name == name) =
        (occurrences leaves').filter fun o => o.name == name) →
      i.parse words = i.parse words') ∧
    ∀ (t : Tree) (node : Pattern Nat) (left left' collected : List Leaf), Shuffled left left' →
      (t.matchNode node left collected).matched = (t.matchNode node left' collected).matched ∧
      (t.matchNode node left collected).collected = (t.matchNode node left' collected).collected ∧
      Shuffled (t.matchNode node left collected).left (t.matchNode node left' collected).left := by
  constructor
  · intro i hpolicy words words' leaves leaves' hleaves hleaves' hwords hoptions
    rw [parse_of_readInvocation hleaves, parse_of_readInvocation hleaves',
      registry_readInvocation hpolicy, registry_readInvocation hpolicy]
    exact i.bindLeaves_eq (given_of_readInvocation hleaves) (given_of_readInvocation hleaves')
      (lists_of_readInvocation hpolicy hleaves) hwords hoptions
  · intro t node left left' collected h
    obtain ⟨hmatched, hleft, hcollected⟩ := t.shuffled_matchNode node h collected
    exact ⟨hmatched, hcollected, hleft⟩

/-- The flag moves over an option with a value and over the word. In the leaves, as they are matched,
also the two occurrences of that option change places. -/
theorem parse_eq_of_interleaving_sender :
    let you : Opt := ⟨none, some "--to", 1, .str "you"⟩
    let her : Opt := ⟨none, some "--to", 1, .str "her"⟩
    let quiet : Opt := ⟨some "-q", none, 0, .bool true⟩
    let leaves : List Leaf := [.option you, .positional "a", .option her, .option quiet]
    let leaves' : List Leaf := [.option quiet, .option you, .option her, .positional "a"]
    let leaves'' : List Leaf := [.option her, .option quiet, .positional "a", .option you]
    let words := ["--to=you", "a", "--to", "her", "-q"]
    let words' := ["-q", "--to", "you", "--to=her", "a"]
    (sender.settings.policy = .reject ∧
      (readInvocation sender.settings.mode sender.options words).outcome = .ok leaves ∧
      (readInvocation sender.settings.mode sender.options words').outcome = .ok leaves' ∧
      positionals leaves = positionals leaves' ∧
      (∀ name, (occurrences leaves).filter (fun o => o.name == name) =
        (occurrences leaves').filter fun o => o.name == name) ∧
      sender.parse words = sender.parse words') ∧
    Shuffled leaves leaves'' ∧
      (sender.tree.matchNode sender.tree.root leaves []).matched =
        (sender.tree.matchNode sender.tree.root leaves'' []).matched ∧
      (sender.tree.matchNode sender.tree.root leaves []).collected =
        (sender.tree.matchNode sender.tree.root leaves'' []).collected ∧
      Shuffled (sender.tree.matchNode sender.tree.root leaves []).left
        (sender.tree.matchNode sender.tree.root leaves'' []).left := by
  intro you her quiet leaves leaves' leaves'' words words'
  have hpolicy : sender.settings.policy = .reject := rfl
  have hread : (readInvocation sender.settings.mode sender.options words).outcome = .ok leaves := by
    cbv
  have hread' : (readInvocation sender.settings.mode sender.options words').outcome =
      .ok leaves' := by cbv
  have hoptions : ∀ name, (occurrences leaves).filter (fun o => o.name == name) =
      (occurrences leaves').filter fun o => o.name == name := by
    intro name
    show [you, her, quiet].filter _ = [quiet, you, her].filter _
    by_cases hname : name = "-q"
    · subst hname
      decide
    · have hquiet : ¬ (quiet.name == name) = true := fun heq => hname (eq_of_beq heq).symm
      simp [List.filter_cons, hquiet]
  have hshuffled : Shuffled leaves leaves'' := by
    refine ⟨?_, ?_, rfl, ?_⟩
    · decide
    · decide
    · show [you, her, quiet].Perm [her, quiet, you]
      decide
  exact ⟨⟨hpolicy, hread, hread', rfl, hoptions,
    parse_eq_of_interleaving.1 sender hpolicy _ _ _ _ hread hread' rfl hoptions⟩,
    hshuffled, parse_eq_of_interleaving.2 sender.tree sender.tree.root leaves leaves'' [] hshuffled⟩

end Interface

end Synopsis
