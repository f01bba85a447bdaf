import Mathlib
import Synopsis.Proofs.Marking
import Synopsis.Proofs.Sharing

/-!
# The normal form of a normal form

Marking changes the leaves by which slots are shared, so that a second pass over a normal form has a
reason of its own to do something: two slots could have become equal by marking, and would be merged. For
a tree that was read this does not happen. There an argument is known by its name and so is a command, and
marking leaves names alone; so different slots stay different (`Tree.leafAt_normalize_injective`), sharing
finds the numbers in order and nothing to share (`Tree.intern_eq_self`), and marking turns the slots that
are turned already (`Tree.markRepeats_markRepeats`).
-/

namespace Synopsis

/-- A leaf that takes no word does not become a collector. -/
theorem Leaf.collecting_of_not_isWordSlot {l : Leaf} (h : l.isWordSlot = false) : l.collecting = l := by
  cases l with
  | argument name value => cases h
  | command name given => rfl
  | option o => rfl
  | anyOptions => rfl

namespace Tree

variable {t : Tree}

/-! ## Each pass alone -/

/-- Marking does not change the pattern, so it finds the same slots again. -/
theorem markRepeats_markRepeats (t : Tree) : t.markRepeats.markRepeats = t.markRepeats := by
  have hslots : t.markRepeats.markRepeats.slots = t.markRepeats.slots := by
    refine List.ext_getElem? ?_
    intro i
    cases hslot : t.slots[i]? with
    | none =>
      simp only [markRepeats, List.getElem?_mapIdx, hslot, Option.map_none]
    | some l =>
      have honce := getElem?_markRepeats hslot
      have htwice := getElem?_markRepeats honce
      have hgroups : t.markRepeats.root.groups = t.root.groups := rfl
      rw [htwice, honce, hgroups]
      split
      · rw [Leaf.collecting_collecting]
      · rfl
  calc t.markRepeats.markRepeats = ⟨t.markRepeats.markRepeats.slots, t.root⟩ := rfl
    _ = t.markRepeats := by rw [hslots]; rfl

theorem map_leafAt_range (t : Tree) : (List.range t.slots.length).map t.leafAt = t.slots := by
  refine List.ext_getElem (by simp) ?_
  intro i _ hi
  rw [List.getElem_map, List.getElem_range, leafAt_eq_getElem hi]

/-- Sharing has nothing to do where the numbers are met in order and no two of them have one leaf. -/
theorem intern_eq_self (horder : t.root.flat.eraseDups = List.range t.slots.length)
    (hapart : ∀ i ∈ t.root.flat, ∀ j ∈ t.root.flat, t.leafAt i = t.leafAt j → i = j) :
    t.intern = t := by
  have hslots : t.leaves.eraseDups = t.slots := by
    calc t.leaves.eraseDups = t.root.flat.eraseDups.map t.leafAt := eraseDups_map hapart
      _ = t.slots := by rw [horder, map_leafAt_range]
  have hnodup : t.slots.Nodup := hslots ▸ nodup_eraseDups t.leaves
  have hnumber : ∀ i ∈ t.root.flat, t.leaves.eraseDups.idxOf (t.leafAt i) = id i := by
    intro i hi
    have hlt : i < t.slots.length := by
      rwa [← List.mem_eraseDups, horder, List.mem_range] at hi
    rw [hslots, leafAt_eq_getElem hlt, hnodup.idxOf_getElem i hlt, id]
  calc t.intern = ⟨t.leaves.eraseDups, t.root.map fun i => t.leaves.eraseDups.idxOf (t.leafAt i)⟩ := rfl
    _ = ⟨t.slots, t.root⟩ := by rw [Pattern.map_congr hnumber, Pattern.map_id, hslots]

/-! ## Both passes on a tree that was read -/

/-- A slot of the normal form is in use. -/
theorem mem_flat_normalize {i : Nat} (hi : i < t.normalize.slots.length) :
    i ∈ t.normalize.root.flat := by
  have hlength : t.normalize.slots.length = t.intern.slots.length := List.length_mapIdx
  rw [hlength] at hi
  exact ((SharedAs.of_intern t).numbers i).mpr hi

/-- Different slots of the normal form hold different leaves, as they did before they were marked. -/
theorem leafAt_normalize_injective (ht : t.Read) {i j : Nat} (hi : i ∈ t.normalize.root.flat)
    (hj : j ∈ t.normalize.root.flat) (h : t.normalize.leafAt i = t.normalize.leafAt j) : i = j := by
  cases hword : (t.normalize.leafAt i).isWordSlot with
  | true => exact slot_eq_of_name_eq ht hi hj hword (h ▸ hword) (congrArg Leaf.name? h)
  | false =>
    -- marking did not touch a leaf of this kind
    have hshared : ∀ k, (t.normalize.leafAt k).isWordSlot = false →
        t.normalize.leafAt k = t.intern.leafAt k := by
      intro k hk
      rw [leafAt_normalize] at hk ⊢
      split at hk
      · next hrepeats =>
        rw [Leaf.isWordSlot_collecting] at hk
        rw [if_pos hrepeats, Leaf.collecting_of_not_isWordSlot hk]
      · next hrepeats => rw [if_neg hrepeats]
    have hother : (t.normalize.leafAt j).isWordSlot = false := h ▸ hword
    rw [hshared i hword, hshared j hother] at h
    exact leafAt_intern_injective hi hj h

theorem intern_normalize (ht : t.Read) : t.normalize.intern = t.normalize := by
  apply intern_eq_self
  · have hlength : t.normalize.slots.length = t.intern.slots.length := List.length_mapIdx
    rw [hlength]
    exact t.eraseDups_flat_intern
  · exact fun i hi j hj => leafAt_normalize_injective ht hi hj

theorem normalize_normalize (ht : t.Read) : t.normalize.normalize = t.normalize := by
  calc t.normalize.normalize = t.normalize.intern.markRepeats := rfl
    _ = t.normalize.markRepeats := by rw [intern_normalize ht]
    _ = t.normalize := markRepeats_markRepeats t.intern

/-- Arguments and commands of the normal form that have one name are in one slot. -/
theorem eq_of_name?_eq (ht : t.Read) {i j : Nat} {l m : Leaf} (hi : t.normalize.slots[i]? = some l)
    (hj : t.normalize.slots[j]? = some m) (hl : l.isWordSlot = true) (hm : m.isWordSlot = true)
    (hname : l.name? = m.name?) : i = j := by
  obtain ⟨hilt, rfl⟩ := List.getElem?_eq_some_iff.mp hi
  obtain ⟨hjlt, rfl⟩ := List.getElem?_eq_some_iff.mp hj
  rw [← leafAt_eq_getElem hilt] at hl hname
  rw [← leafAt_eq_getElem hjlt] at hm hname
  exact slot_eq_of_name_eq ht (mem_flat_normalize hilt) (mem_flat_normalize hjlt) hl hm hname

/-- **A normal form is final, and a name in it is that of one slot.** To normalize a tree that was read a
second time changes nothing, neither the pattern nor a number nor a slot. In the normal form two slots with
arguments of the same name are one slot, two slots with commands of the same name are one slot, and no
argument has the name of a command. -/
theorem normalize_final {registry : Registry} {source : String}
    (h : (parsePattern registry source).outcome = .ok t) :
    t.normalize.normalize = t.normalize ∧
    (∀ (i j : Nat) name v w, t.normalize.slots[i]? = some (.argument name v) →
      t.normalize.slots[j]? = some (.argument name w) → i = j) ∧
    (∀ (i j : Nat) name b c, t.normalize.slots[i]? = some (.command name b) →
      t.normalize.slots[j]? = some (.command name c) → i = j) ∧
    ∀ (i j : Nat) name v b, t.normalize.slots[i]? = some (.argument (some name) v) →
      t.normalize.slots[j]? ≠ some (.command name b) := by
  have ht := read_of_parsePattern h
  refine ⟨normalize_normalize ht, ?_, ?_, ?_⟩
  · intro i j name v w hi hj
    exact eq_of_name?_eq ht hi hj rfl rfl rfl
  · intro i j name b c hi hj
    exact eq_of_name?_eq ht hi hj rfl rfl rfl
  · intro i j name v b hi hj
    obtain rfl := eq_of_name?_eq ht hi hj rfl rfl rfl
    rw [hi] at hj
    cases hj

/-- The tree of `go [-v] (A B|A... go) -v` as it is read when the option is known: a slot for
each place. -/
def errands : Tree :=
  ⟨[.keyword "go", .option ⟨some "-v", none, 0, .bool true⟩, .placeholder "A", .placeholder "B",
      .placeholder "A", .keyword "go", .option ⟨some "-v", none, 0, .bool true⟩],
    .required [.leaf 0, .optional [.leaf 1],
      .required [.either [.required [.leaf 2, .leaf 3], .required [.oneOrMore (.leaf 4), .leaf 5]]],
      .leaf 6]⟩

/-- `A` is met twice and collects a list in both alternatives; both commands share a slot, and so do
both options. -/
theorem normalize_final_errands :
    (parsePattern [.ofShort "-v"] "go [-v] (A B|A... go) -v").outcome = .ok errands ∧
    errands.normalize = ⟨[.keyword "go", .option ⟨some "-v", none, 0, .bool true⟩,
        .argument (some "A") (.list []), .placeholder "B"],
      .required [.leaf 0, .optional [.leaf 1],
        .required [.either [.required [.leaf 2, .leaf 3], .required [.oneOrMore (.leaf 2), .leaf 0]]],
        .leaf 1]⟩ ∧
    errands.normalize.normalize = errands.normalize ∧
    (∀ (i j : Nat) name v w, errands.normalize.slots[i]? = some (.argument name v) →
      errands.normalize.slots[j]? = some (.argument name w) → i = j) ∧
    (∀ (i j : Nat) name b c, errands.normalize.slots[i]? = some (.command name b) →
      errands.normalize.slots[j]? = some (.command name c) → i = j) ∧
    ∀ (i j : Nat) name v b, errands.normalize.slots[i]? = some (.argument (some name) v) →
      errands.normalize.slots[j]? ≠ some (.command name b) := by
  have h : (parsePattern [.ofShort "-v"] "go [-v] (A B|A... go) -v").outcome = .ok errands := by
    cbv
  exact ⟨h, by cbv, normalize_final h⟩

end Tree

end Synopsis
