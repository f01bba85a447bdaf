import Synopsis.Proofs.Normal

/-!
# Which slots collect a list

Marking goes through the groups of the expansion. Each group is tallied, and every argument with a tally
of more than one becomes a collector. In what order the entries of a tally come is left open
(`tally` up to permutation); it does not matter, because an entry says only whether its own slot is
turned, and to turn a slot twice is to turn it once (`getElem?_foldl_visit`).

The expansion can be far larger than the pattern, but which slots are turned can be read off the pattern:
those of arguments that have a multiplicity of at least two (`Tree.markRepeats_exact`). A choice without
alternatives has to be ruled out there, since it leaves no group at all.
-/

namespace Synopsis

/-! ## Numbers in groups -/

namespace Pattern

variable {α : Type}

theorem mem_flatAll_of_mem_waysAll {ps : List (Pattern α)} {a : α}
    (h : ∀ p ∈ ps, ∀ g ∈ p.ways, a ∈ g → a ∈ p.flat) :
    ∀ g ∈ waysAll ps, a ∈ g → a ∈ flatAll ps := by
  induction ps with
  | nil =>
    intro g hg ha
    rw [waysAll, Multiset.mem_singleton] at hg
    rw [hg] at ha
    exact absurd ha (Multiset.notMem_zero a)
  | cons p ps ih =>
    intro k hk ha
    obtain ⟨hp, hps⟩ := List.forall_mem_cons.mp h
    obtain ⟨g, hg, g', hg', rfl⟩ := mem_unions.mp hk
    rw [flatAll, List.mem_append]
    rcases Multiset.mem_add.mp ha with ha | ha
    · exact Or.inl (hp g hg ha)
    · exact Or.inr (ih hps g' hg' ha)

/-- A way through a pattern meets leaves of the pattern only. -/
theorem mem_flat_of_mem_ways {p : Pattern α} {a : α} : ∀ g ∈ p.ways, a ∈ g → a ∈ p.flat := by
  induction p using Pattern.ind with
  | leaf b =>
    intro g hg ha
    rw [ways, Multiset.mem_singleton] at hg
    rw [hg, Multiset.mem_singleton] at ha
    rw [ha]
    exact List.mem_singleton_self b
  | required ps ih => exact mem_flatAll_of_mem_waysAll ih
  | optional ps ih => exact mem_flatAll_of_mem_waysAll ih
  | either ps ih =>
    intro g hg ha
    obtain ⟨p, hp, hg⟩ := mem_waysAny.mp hg
    exact mem_flatAll.mpr ⟨p, hp, ih p hp g hg ha⟩
  | oneOrMore p ih =>
    intro k hk ha
    obtain ⟨g, hg, g', hg', rfl⟩ := mem_unions.mp hk
    rcases Multiset.mem_add.mp ha with ha | ha
    · exact ih g hg ha
    · exact ih g' hg' ha

end Pattern

/-! ## Marking along tallies -/

/-- The numbers that occur in a group, each with how often it does. -/
def tally (g : List Nat) : List (Nat × Nat) := g.eraseDups.map fun i => (i, g.count i)

theorem mem_tally {g : List Nat} {e : Nat × Nat} : e ∈ tally g ↔ e.1 ∈ g ∧ e.2 = g.count e.1 := by
  obtain ⟨i, n⟩ := e
  simp only [tally, List.mem_map, List.mem_eraseDups, Prod.mk.injEq]
  constructor
  · rintro ⟨j, hj, rfl, rfl⟩
    exact ⟨hj, rfl⟩
  · rintro ⟨hi, rfl⟩
    exact ⟨i, hi, rfl, rfl⟩

/-- The entry says that the slot with the given number is to be turned. -/
def turns (i : Nat) (e : Nat × Nat) : Bool := e.1 == i && 1 < e.2

/-- What an entry of a tally does to the slots: the leaf in its slot becomes a collector if it was met
more than once. -/
def visit (slots : List Leaf) (e : Nat × Nat) : List Leaf :=
  if 1 < e.2 then slots.modify e.1 Leaf.collecting else slots

/-- Go through tallies one after the other, and through the entries of each. -/
def visitAll (tallies : List (List (Nat × Nat))) (slots : List Leaf) : List Leaf :=
  tallies.foldl (fun slots entries => entries.foldl visit slots) slots

theorem Leaf.collecting_collecting (l : Leaf) : l.collecting.collecting = l.collecting := by
  cases l <;> rfl

/-- One entry touches one slot at most. -/
theorem getElem?_visit (slots : List Leaf) (e : Nat × Nat) (i : Nat) :
    (visit slots e)[i]? = slots[i]?.map fun l => if turns i e then l.collecting else l := by
  unfold visit turns
  split
  · next hmany =>
    rw [List.getElem?_modify]
    simp only [hmany, decide_true, Bool.and_true, beq_iff_eq]
    rfl
  · next hmany => simp [hmany]

/-- A slot is turned if some entry says so, wherever that entry stands and however many there are. -/
theorem getElem?_foldl_visit (entries : List (Nat × Nat)) (slots : List Leaf) (i : Nat) :
    (entries.foldl visit slots)[i]? =
      slots[i]?.map fun l => if entries.any (turns i) then l.collecting else l := by
  induction entries generalizing slots with
  | nil => simp
  | cons e entries ih =>
    rw [List.foldl_cons, ih, getElem?_visit, Option.map_map]
    refine congrArg (slots[i]?.map ·) ?_
    funext l
    cases hfirst : turns i e <;> cases hrest : entries.any (turns i) <;>
      simp [hfirst, hrest, Leaf.collecting_collecting]

/-- An entry of a tally turns a slot if the group has its number more than once. -/
theorem any_turns_iff {entries : List (Nat × Nat)} {g : List Nat} (h : entries.Perm (tally g)) {i : Nat} :
    entries.any (turns i) = true ↔ 1 < g.count i := by
  simp only [List.any_eq_true, h.mem_iff, mem_tally, turns, Bool.and_eq_true, beq_iff_eq,
    decide_eq_true_eq]
  constructor
  · rintro ⟨e, ⟨-, hn⟩, rfl, hlt⟩
    rwa [← hn]
  · intro hlt
    have hmem : i ∈ g := List.count_pos_iff.mp (by omega)
    exact ⟨(i, g.count i), ⟨hmem, rfl⟩, rfl, hlt⟩

/-- **`Tallied tallies groups`**: the groups are tallied one by one, the entries of each in any order. -/
def Tallied (tallies : List (List (Nat × Nat))) (groups : List (List Nat)) : Prop :=
  List.Forall₂ (fun entries g => entries.Perm (tally g)) tallies groups

theorem Tallied.exists_group {tallies : List (List (Nat × Nat))} {groups : List (List Nat)}
    (h : Tallied tallies groups) :
    ∀ entries ∈ tallies, ∃ g ∈ groups, entries.Perm (tally g) := by
  induction h with
  | nil => exact fun _ hmem => absurd hmem List.not_mem_nil
  | cons hentries _ ih =>
    intro entries hmem
    rcases List.mem_cons.mp hmem with rfl | hmem
    · exact ⟨_, List.mem_cons_self, hentries⟩
    · obtain ⟨g, hg, hperm⟩ := ih entries hmem
      exact ⟨g, List.mem_cons_of_mem _ hg, hperm⟩

namespace Tree

theorem any_turns_flatten {tallies : List (List (Nat × Nat))} {groups : List (List Nat)}
    (h : Tallied tallies groups) (i : Nat) : tallies.flatten.any (turns i) = repeatsIn groups i := by
  induction h with
  | nil => rfl
  | @cons entries g tallies groups hentries _ ih =>
    have hfirst : entries.any (turns i) = decide (1 < g.count i) := by
      rw [Bool.eq_iff_iff, any_turns_iff hentries, decide_eq_true_iff]
    rw [List.flatten_cons, List.any_append, ih, hfirst]
    rfl

/-- **Marking does not depend on the order of the tallies.** Slot by slot, it is the one pass that asks
for each slot if it repeats. -/
theorem visitAll_eq (t : Tree) {tallies : List (List (Nat × Nat))} (h : Tallied tallies t.root.groups) :
    visitAll tallies t.slots = t.markRepeats.slots := by
  refine List.ext_getElem? ?_
  intro i
  rw [visitAll, ← List.foldl_flatten, getElem?_foldl_visit, any_turns_flatten h, markRepeats,
    List.getElem?_mapIdx]

/-- The tallies name slots of the tree only. -/
theorem lt_of_tallied {t : Tree} (hrange : t.InRange) {tallies : List (List (Nat × Nat))}
    (h : Tallied tallies t.root.groups) :
    ∀ entries ∈ tallies, ∀ e ∈ entries, e.1 < t.slots.length := by
  intro entries hentries e he
  obtain ⟨g, hg, hperm⟩ := h.exists_group entries hentries
  have hmem : e.1 ∈ g := (mem_tally.mp (hperm.mem_iff.mp he)).1
  have hway : Multiset.ofList g ∈ t.root.ways := Pattern.mem_ways_iff.mpr ⟨g, hg, rfl⟩
  exact hrange e.1 (Pattern.mem_flat_of_mem_ways _ hway (Multiset.mem_coe.mpr hmem))

/-! ## What marking does to a slot -/

theorem getElem?_markRepeats {t : Tree} {i : Nat} {l : Leaf} (h : t.slots[i]? = some l) :
    t.markRepeats.slots[i]? = some (if repeatsIn t.root.groups i then l.collecting else l) := by
  rw [markRepeats, List.getElem?_mapIdx, h, Option.map_some]

/-- A slot repeats exactly if its number has a multiplicity of two or more. -/
theorem repeatsIn_groups_iff {p : Pattern Nat} (hp : p.Passable) {i : Nat} :
    repeatsIn p.groups i = true ↔ 2 ≤ p.multiplicity i := by
  rw [repeatsIn_eq_true_iff]
  exact Pattern.exists_group_count_iff i hp 1

/-- **Marking is exact.** Take a tree in which every number is that of a slot and every choice offers an
alternative. Marking leaves the pattern as it is. A slot with an argument whose multiplicity in the
pattern is two or more gets a collector of the same name. Any other slot is left alone: one with an
argument of multiplicity one or none, one with anything else, one that the pattern does not use. The loop
over the tallies of the groups does the same and never leaves the slots, whatever order the entries of
each tally come in. -/
theorem markRepeats_exact {t : Tree} (hrange : t.InRange) (hroot : t.root.Passable) :
    t.markRepeats.root = t.root ∧
    t.markRepeats.slots.length = t.slots.length ∧
    (∀ i name value, t.slots[i]? = some (.argument name value) → 2 ≤ t.root.multiplicity i →
      t.markRepeats.slots[i]? = some (.argument name (.list []))) ∧
    (∀ i l, t.slots[i]? = some l →
      (∀ name value, l = .argument name value → t.root.multiplicity i ≤ 1) →
      t.markRepeats.slots[i]? = some l) ∧
    ∀ tallies, Tallied tallies t.root.groups →
      (∀ entries ∈ tallies, ∀ e ∈ entries, e.1 < t.slots.length) ∧
      visitAll tallies t.slots = t.markRepeats.slots := by
  refine ⟨rfl, List.length_mapIdx, ?_, ?_, ?_⟩
  · intro i name value hslot hmany
    rw [getElem?_markRepeats hslot, if_pos ((repeatsIn_groups_iff hroot).mpr hmany)]
    rfl
  · intro i l hslot hfew
    rw [getElem?_markRepeats hslot]
    split
    · next hrepeats =>
      -- only a leaf that is no argument can repeat here, and such a leaf does not collect
      have hmany := (repeatsIn_groups_iff hroot).mp hrepeats
      cases l with
      | argument name value =>
        have hle := hfew name value rfl
        omega
      | command name given => rfl
      | option o => rfl
      | anyOptions => rfl
    · rfl
  · intro tallies htallies
    exact ⟨lt_of_tallied hrange htallies, t.visitAll_eq htallies⟩

/-- In `(go FILE NAME | NAME) [FILE] go -v...` the argument `FILE` is met twice on one way, once in the
first alternative and once behind it; `NAME` is met once on each. Command and option repeat and stay as
they are, and so does the last slot, which no place refers to. The entries of each tally are visited from
the last to the first. -/
theorem markRepeats_exact_sample :
    let t : Tree := ⟨[.placeholder "FILE", .placeholder "NAME", .keyword "go", .option (.ofShort "-v"),
        .placeholder "SPARE"],
      .required [.either [.required [.leaf 2, .leaf 0, .leaf 1], .leaf 1], .optional [.leaf 0], .leaf 2,
        .oneOrMore (.leaf 3)]⟩
    let backwards := t.root.groups.map fun g => (tally g).reverse
    t.InRange ∧ t.root.Passable ∧ Tallied backwards t.root.groups ∧
    t.markRepeats.slots[0]? = some (.argument (some "FILE") (.list [])) ∧
    (∀ i ∈ [1, 2, 3, 4], t.markRepeats.slots[i]? = t.slots[i]?) ∧
    visitAll backwards t.slots = t.markRepeats.slots := by
  intro t backwards
  have hrange : t.InRange := by
    unfold InRange
    decide
  have hroot : t.root.Passable := by simp [t, Pattern.Passable, Pattern.PassableAll]
  have htallied : Tallied backwards t.root.groups := by
    rw [Tallied, List.forall₂_map_left_iff, List.forall₂_same]
    exact fun g _ => List.reverse_perm _
  obtain ⟨-, -, hturned, hkept, hloop⟩ := markRepeats_exact hrange hroot
  refine ⟨hrange, hroot, htallied, hturned 0 (some "FILE") .null rfl (by decide), ?_,
    (hloop _ htallied).2⟩
  simp only [List.forall_mem_cons, List.not_mem_nil, false_imp_iff, implies_true, and_true]
  refine ⟨hkept 1 _ rfl ?_, hkept 2 _ rfl ?_, hkept 3 _ rfl ?_, hkept 4 _ rfl ?_⟩
  · intro _ _ _
    decide
  · intro _ _ h
    cases h
  · intro _ _ h
    cases h
  · intro _ _ _
    decide

end Tree

end Synopsis
