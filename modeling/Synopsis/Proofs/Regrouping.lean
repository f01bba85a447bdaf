import Synopsis.Proofs.Assignment
import Synopsis.Proofs.Simulation

/-!
# The normal form changes only how bindings are grouped

A tree and its normal form fit the same leaves and leave the same. They bind the same words to the same
names in the same order; only where the tree binds an argument again and again, the normal form collects
the words in one list.

The two trees have one shape (`Tree.pattern_intern`), so it is enough to look at one place at a time.
`Leaf.Marked` lists what marking makes of the leaf there. A collector puts a word into the middle of the
bindings, next to earlier words of its name; that this is also the end of what is bound to the name is
the invariant `Regrouped.lists`, and it holds because a name that collects has one slot.
-/

namespace Synopsis

/-! ## What is bound to an argument -/

/-- The texts that a value holds. -/
def Value.texts : Value → List String
  | str s => [s]
  | list items => items
  | _ => []

/-- The leaf is a command. -/
def Leaf.isCommand : Leaf → Bool
  | command _ _ => true
  | _ => false

/-- The texts that a leaf binds to the argument of the given name. -/
def Leaf.textsFor (name : String) : Leaf → List String
  | argument (some n) v => if n = name then v.texts else []
  | _ => []

/-- The texts bound to the argument of the given name, in order. -/
def textsBoundTo (name : String) (bound : List Leaf) : List String :=
  bound.flatMap (Leaf.textsFor name)

theorem textsBoundTo_append (name : String) (bound bound' : List Leaf) :
    textsBoundTo name (bound ++ bound') = textsBoundTo name bound ++ textsBoundTo name bound' :=
  List.flatMap_append

theorem textsFor_of_not_named {name : String} {l : Leaf} (h : l.isNamed name = false) :
    l.textsFor name = [] := by
  unfold Leaf.textsFor
  split
  · next n v =>
    have hne : n ≠ name := by
      rintro rfl
      simp [Leaf.isNamed, Leaf.name?] at h
    exact if_neg hne
  · rfl

/-- Only leaves of the name count. -/
theorem textsBoundTo_filter (name : String) (bound : List Leaf) :
    textsBoundTo name bound = textsBoundTo name (bound.filter (Leaf.isNamed name)) := by
  induction bound with
  | nil => rfl
  | cons l ls ih =>
    rw [← List.singleton_append, textsBoundTo_append, ih, List.filter_append, textsBoundTo_append]
    congr 1
    by_cases hl : l.isNamed name = true
    · rw [List.filter_cons_of_pos hl, List.filter_nil]
    · rw [List.filter_cons_of_neg hl, List.filter_nil, textsBoundTo, List.flatMap_singleton,
        textsFor_of_not_named (Bool.eq_false_iff.mpr hl)]
      rfl

/-! ## Regrouped bindings -/

/-- The name is bound at most once, and to a list. -/
def ListedOnce (name : String) (bound : List Leaf) : Prop :=
  bound.filter (Leaf.isNamed name) = [] ∨
    ∃ ws, bound.filter (Leaf.isNamed name) = [.argument (some name) (.list ws)]

/-- **`Regrouped collects bound bound'`**: both bind the same commands and, to each argument, the same
texts; in `bound'` a name that collects is bound at most once, to a list. -/
structure Regrouped (collects : String → Prop) (bound bound' : List Leaf) : Prop where
  commands : bound.filter Leaf.isCommand = bound'.filter Leaf.isCommand
  texts : ∀ name, textsBoundTo name bound = textsBoundTo name bound'
  lists : ∀ name, collects name → ListedOnce name bound'

variable {collects : String → Prop} {bound bound' : List Leaf}

/-- One more leaf on both sides, if its name does not collect. -/
theorem Regrouped.snoc (h : Regrouped collects bound bound') {l : Leaf}
    (hl : ∀ name, collects name → l.isNamed name = false) :
    Regrouped collects (bound ++ [l]) (bound' ++ [l]) where
  commands := by rw [List.filter_append, List.filter_append, h.commands]
  texts := by
    intro name
    rw [textsBoundTo_append, textsBoundTo_append, h.texts name]
  lists := by
    intro name hname
    have hfilter : (bound' ++ [l]).filter (Leaf.isNamed name) =
        bound'.filter (Leaf.isNamed name) := by
      rw [List.filter_append, List.filter_cons_of_neg (Bool.eq_false_iff.mp (hl name hname)),
        List.filter_nil, List.append_nil]
    unfold ListedOnce
    rw [hfilter]
    exact h.lists name hname

theorem filter_isCommand_appendTo (name : Option String) (w : String) (bound : List Leaf) :
    (appendTo name w bound).filter Leaf.isCommand = bound.filter Leaf.isCommand := by
  fun_induction appendTo name w bound with
  | case1 => rfl
  | case2 ws ls => rfl
  | case3 n ws ls _ ih => exact ih
  | case4 l ls _ ih => rw [List.filter_cons, List.filter_cons, ih]

/-- A name that is bound at most once, to a list, still is after one more word; the word is the last of
its texts. -/
theorem ListedOnce.appendTo {name : String} (h : ListedOnce name bound) (w : String) :
    ListedOnce name (appendTo (some name) w bound) ∧
      textsBoundTo name (appendTo (some name) w bound) = textsBoundTo name bound ++ [w] := by
  have hfilter := filter_named_appendTo_self name w bound
  rw [textsBoundTo_filter name (Synopsis.appendTo (some name) w bound),
    textsBoundTo_filter name bound, ListedOnce, hfilter]
  rcases h with hnone | ⟨ws, hlist⟩
  · rw [hnone]
    refine ⟨Or.inr ⟨[w], rfl⟩, ?_⟩
    simp [Synopsis.appendTo, textsBoundTo, Leaf.textsFor, Value.texts]
  · rw [hlist]
    refine ⟨Or.inr ⟨ws ++ [w], ?_⟩, ?_⟩
    · simp [Synopsis.appendTo]
    · simp [Synopsis.appendTo, textsBoundTo, Leaf.textsFor, Value.texts]

/-- A word put at the end on the one side and into the list of its name on the other. -/
theorem Regrouped.collect (h : Regrouped collects bound bound') {name : String}
    (hname : collects name) (w : String) :
    Regrouped collects (bound ++ [.argument (some name) (.str w)]) (appendTo (some name) w bound')
    where
  commands := by
    rw [filter_isCommand_appendTo, List.filter_append, h.commands]
    exact List.append_nil _
  texts := by
    intro other
    rw [textsBoundTo_append, h.texts other]
    by_cases hother : name = other
    · subst hother
      rw [((h.lists name hname).appendTo w).2]
      simp [textsBoundTo, Leaf.textsFor, Value.texts]
    · rw [textsBoundTo_filter other (appendTo (some name) w bound'),
        filter_named_appendTo_of_ne hother, ← textsBoundTo_filter]
      simp [textsBoundTo, Leaf.textsFor, hother]
  lists := by
    intro other hcollects
    by_cases hother : name = other
    · subst hother
      exact ((h.lists name hname).appendTo w).1
    · rw [ListedOnce, filter_named_appendTo_of_ne hother]
      exact h.lists other hcollects

/-! ## Leaves that were marked -/

/-- **`Leaf.Marked collects l l'`**: what marking makes of a leaf of a tree that was read, given the
names that collect. -/
inductive Leaf.Marked (collects : String → Prop) : Leaf → Leaf → Prop
  | placeholder {name : String} (h : ¬ collects name) :
      Marked collects (.placeholder name) (.placeholder name)
  | collector {name : String} (h : collects name) :
      Marked collects (.placeholder name) (.argument (some name) (.list []))
  | keyword {name : String} (h : ¬ collects name) :
      Marked collects (.keyword name) (.keyword name)
  | option (o : Opt) : Marked collects (.option o) (.option o)
  | anyOptions : Marked collects .anyOptions .anyOptions

/-- The same leaves are left, and the bindings are regrouped. -/
def MatchState.Regrouped (collects : String → Prop) (s t : MatchState) : Prop :=
  s.left = t.left ∧ Synopsis.Regrouped collects s.collected t.collected

theorem isNamed_of_not_collects {l : Leaf} {name : String} (hl : l.name? = some name)
    (h : ¬ collects name) : ∀ other, collects other → l.isNamed other = false := by
  intro other hother
  rw [Bool.eq_false_iff, ne_eq, isNamed_eq_true, hl]
  rintro heq
  exact h (Option.some.inj heq ▸ hother)

theorem agree_matchArgument {name : Option String} {v v' : Value}
    (h : ∀ w bound bound', Regrouped collects bound bound' →
      Regrouped collects (bindWord name v w bound) (bindWord name v' w bound')) :
    Matcher.Agree (MatchState.Regrouped collects) (matchArgument name v)
      (matchArgument name v') := by
  rintro s t ⟨hleft, hbound⟩
  simp only [matchArgument, hleft]
  cases takePositional? t.left with
  | none => exact ⟨rfl, hleft, hbound⟩
  | some r => exact ⟨rfl, rfl, h _ _ _ hbound⟩

theorem agree_matchCommand {name : String} (h : ¬ collects name) :
    Matcher.Agree (MatchState.Regrouped collects) (matchCommand name) (matchCommand name) := by
  rintro s t ⟨hleft, hbound⟩
  simp only [matchCommand, hleft]
  cases takePositional? t.left with
  | none => exact ⟨rfl, hleft, hbound⟩
  | some r =>
    simp only
    split
    · exact ⟨rfl, rfl, hbound.snoc (isNamed_of_not_collects rfl h)⟩
    · exact ⟨rfl, hleft, hbound⟩

theorem agree_matchAllOf_self (test : Leaf → Bool) :
    Matcher.Agree (MatchState.Regrouped collects) (matchAllOf test) (matchAllOf test) := by
  rintro s t ⟨hleft, hbound⟩
  simp only [matchAllOf, hleft]
  exact ⟨rfl, rfl, hbound⟩

/-- A leaf and what marking makes of it bind the same, grouped differently. -/
theorem agree_marked {l l' : Leaf} (h : l.Marked collects l') :
    Matcher.Agree (MatchState.Regrouped collects) l.matcher l'.matcher := by
  cases h with
  | placeholder hname =>
    refine agree_matchArgument ?_
    intro w bound bound' hbound
    exact hbound.snoc (isNamed_of_not_collects rfl hname)
  | collector hname =>
    refine agree_matchArgument ?_
    intro w bound bound' hbound
    exact hbound.collect hname w
  | keyword hname => exact agree_matchCommand hname
  | option o => exact agree_matchAllOf_self _
  | anyOptions => exact agree_matchAllOf_self _

/-! ## Trees -/

namespace Tree

variable {t : Tree}

/-- The name is that of an argument that collects in the normal form. -/
def Collects (t : Tree) (name : String) : Prop :=
  ∃ i ∈ t.normalize.root.flat, t.normalize.leafAt i = .argument (some name) (.list [])

/-- Each name has one slot, so a name whose slot does not collect does not collect. -/
theorem not_collects (ht : t.Read) {i : Nat} (hi : i ∈ t.normalize.root.flat) {l : Leaf}
    (hl : t.normalize.leafAt i = l) (hslot : l.isWordSlot = true) {name : String}
    (hname : l.name? = some name) (hne : l ≠ .argument (some name) (.list [])) :
    ¬ t.Collects name := by
  subst hl
  rintro ⟨j, hj, hcollector⟩
  have hij : i = j := by
    refine slot_eq_of_name_eq ht hi hj hslot ?_ ?_
    · rw [hcollector]
      rfl
    · rw [hname, hcollector]
      rfl
  exact hne (hij ▸ hcollector)

/-- Only arguments are marked. -/
theorem leafAt_normalize_of_collecting_eq {i : Nat} {l : Leaf} (hl : t.intern.leafAt i = l)
    (hcollecting : l.collecting = l) : t.normalize.leafAt i = l := by
  rw [leafAt_normalize, hl, hcollecting, ite_self]

/-- In each place, the normal form has what marking makes of the leaf there. -/
theorem marked_leafAt (ht : t.Read) {i : Nat} (hi : i ∈ t.normalize.root.flat) :
    (t.intern.leafAt i).Marked t.Collects (t.normalize.leafAt i) := by
  rcases ht.intern.leafAt i with hfresh | hany
  · generalize hl : t.intern.leafAt i = l at hfresh
    cases hfresh with
    | @placeholder name _ =>
      by_cases hrepeats : repeatsIn t.normalize.root.groups i = true
      · have hnormal : t.normalize.leafAt i = .argument (some name) (.list []) := by
          rw [leafAt_normalize, if_pos hrepeats, hl]
          rfl
        rw [hnormal]
        exact .collector ⟨i, hi, hnormal⟩
      · have hnormal : t.normalize.leafAt i = .placeholder name := by
          rw [leafAt_normalize, if_neg hrepeats, hl]
        rw [hnormal]
        refine .placeholder (not_collects ht hi hnormal rfl rfl ?_)
        intro heq
        cases heq
    | @keyword name _ =>
      have hnormal : t.normalize.leafAt i = .keyword name :=
        leafAt_normalize_of_collecting_eq hl rfl
      rw [hnormal]
      refine .keyword (not_collects ht hi hnormal rfl rfl ?_)
      intro heq
      cases heq
    | option o =>
      rw [leafAt_normalize_of_collecting_eq hl rfl]
      exact .option o
  · rw [leafAt_normalize_of_collecting_eq hany rfl, hany]
    exact .anyOptions

/-- **The normal form changes only how bindings are grouped.** A tree that was read and its normal form
fit or fail alike and leave the same leaves; they bind the same commands in the same order and, to each
argument, the same texts in the same order, each in a binding of its own or several in a list. -/
theorem matchLeaves_normalize {registry : Registry} {source : String}
    (h : (parsePattern registry source).outcome = .ok t) (left : List Leaf) :
    (t.normalize.matchLeaves left).matched = (t.matchLeaves left).matched ∧
      (t.normalize.matchLeaves left).left = (t.matchLeaves left).left ∧
      (t.normalize.matchLeaves left).collected.filter Leaf.isCommand =
        (t.matchLeaves left).collected.filter Leaf.isCommand ∧
      ∀ name, textsBoundTo name (t.normalize.matchLeaves left).collected =
        textsBoundTo name (t.matchLeaves left).collected := by
  have ht := read_of_parsePattern h
  -- sharing slots leaves the pattern as it is, so only marking is left to compare
  have hshared : t.matchLeaves left = t.intern.pattern.matcher ⟨left, []⟩ := by
    rw [pattern_intern]
    rfl
  have hempty : Regrouped t.Collects [] [] :=
    ⟨rfl, fun _ => rfl, fun _ _ => Or.inl rfl⟩
  have hagree := Pattern.agree_matcher (R := MatchState.Regrouped t.Collects)
    (fun _ _ hst => congrArg List.length hst.1) (fun i hi => agree_marked (marked_leafAt ht hi))
    ⟨left, []⟩ ⟨left, []⟩ ⟨rfl, hempty⟩
  obtain ⟨hmatched, hleft, hbound⟩ := hagree
  rw [hshared]
  exact ⟨hmatched.symm, hleft.symm, hbound.commands.symm, fun name => (hbound.texts name).symm⟩

/-- The tree of `(to|cc) [N] F F...` as it is read: the two places of `F` have a slot each. -/
def mailing : Tree :=
  ⟨[.keyword "to", .keyword "cc", .placeholder "N", .placeholder "F", .placeholder "F"],
    .required [.required [.either [.leaf 0, .leaf 1]], .optional [.leaf 2], .leaf 3,
      .oneOrMore (.leaf 4)]⟩

/-- Three words are bound to `F`, one by one in the tree and in one list in the normal form. -/
theorem matchLeaves_normalize_mailing :
    let left : List Leaf :=
      [.positional "cc", .positional "7", .positional "a", .positional "b", .positional "c"]
    (parsePattern [] "(to|cc) [N] F F...").outcome = .ok mailing ∧
      (mailing.normalize.matchLeaves left).matched = (mailing.matchLeaves left).matched ∧
      (mailing.normalize.matchLeaves left).left = (mailing.matchLeaves left).left ∧
      (mailing.normalize.matchLeaves left).collected.filter Leaf.isCommand =
        (mailing.matchLeaves left).collected.filter Leaf.isCommand ∧
      ∀ name, textsBoundTo name (mailing.normalize.matchLeaves left).collected =
        textsBoundTo name (mailing.matchLeaves left).collected := by
  intro left
  have h : (parsePattern [] "(to|cc) [N] F F...").outcome = .ok mailing := by cbv
  exact ⟨h, matchLeaves_normalize h left⟩

end Tree

end Synopsis
