import Synopsis.Proofs.Grammar
import Synopsis.Tree.Normal

/-!
# The normal form of a tree that was read

After sharing, different numbers stand for different leaves (`leafAt_intern_injective`). Leaves as the
grammar makes them are equal as soon as their names are, so in the normal form each argument and each
command has one slot (`slot_eq_of_name_eq`), also after some arguments were turned into collectors.
An argument that was not turned into a collector is in no word of the pattern twice
(`count_le_one_of_placeholder`): the expansion has found every way to meet it again.
-/

namespace Synopsis

/-! ## Sharing -/

theorem nodup_eraseDups {α : Type} [BEq α] [LawfulBEq α] (l : List α) : l.eraseDups.Nodup := by
  induction hn : l.length using Nat.strong_induction_on generalizing l with
  | _ n ih =>
    cases l with
    | nil => exact List.nodup_nil
    | cons a as =>
      rw [List.eraseDups_cons, List.nodup_cons]
      constructor
      · intro hmem
        rw [List.mem_eraseDups, List.mem_filter] at hmem
        simp at hmem
      · have hlen := List.length_filter_le (fun b => !b == a) as
        rw [List.length_cons] at hn
        exact ih _ (by omega) _ rfl

namespace Pattern

/-- Renaming the leaves of a pattern leaves its choices as they are. -/
theorem passable_map {α β : Type} (f : α → β) {p : Pattern α} (h : p.Passable) :
    (p.map f).Passable := by
  have hall : ∀ ps : List (Pattern α), (∀ p ∈ ps, p.Passable → (p.map f).Passable) →
      PassableAll ps → PassableAll (mapAll f ps) := by
    intro ps ih hps
    rw [passableAll_iff] at hps ⊢
    rw [mapAll_eq_map]
    intro q hq
    obtain ⟨p, hp, rfl⟩ := List.mem_map.mp hq
    exact ih p hp (hps p hp)
  induction p using Pattern.ind with
  | leaf a => exact h
  | required ps ih | optional ps ih => exact hall ps ih h
  | either ps ih =>
    refine ⟨?_, hall ps ih h.2⟩
    rw [mapAll_eq_map]
    exact fun hnil => h.1 (List.map_eq_nil_iff.mp hnil)
  | oneOrMore p ih => exact ih h

end Pattern

namespace Tree

theorem inRange_intern (t : Tree) : t.intern.InRange := by
  intro i hi
  have hflat : t.intern.root.flat = t.root.flat.map fun j => t.leaves.eraseDups.idxOf (t.leafAt j) :=
    Pattern.flat_map ..
  rw [hflat] at hi
  obtain ⟨j, hj, rfl⟩ := List.mem_map.mp hi
  exact List.idxOf_lt_length_of_mem (List.mem_eraseDups.mpr (List.mem_map_of_mem hj))

theorem leafAt_eq_getElem {t : Tree} {i : Nat} (hi : i < t.slots.length) :
    t.leafAt i = t.slots[i] := by
  rw [leafAt, List.getD_eq_getElem?_getD, List.getElem?_eq_getElem hi, Option.getD_some]

theorem leafAt_mem_slots {t : Tree} {i : Nat} (hi : i < t.slots.length) :
    t.leafAt i ∈ t.slots := by
  rw [leafAt_eq_getElem hi]
  exact List.getElem_mem hi

/-- Different numbers stand for different leaves once slots are shared. -/
theorem leafAt_intern_injective {t : Tree} {i j : Nat} (hi : i ∈ t.intern.root.flat)
    (hj : j ∈ t.intern.root.flat) (h : t.intern.leafAt i = t.intern.leafAt j) : i = j := by
  have hilt := t.inRange_intern i hi
  have hjlt := t.inRange_intern j hj
  rw [leafAt_eq_getElem hilt, leafAt_eq_getElem hjlt] at h
  exact (nodup_eraseDups t.leaves).getElem_inj_iff.mp h

/-! ## Marking -/

theorem leafAt_markRepeats (t : Tree) (i : Nat) :
    t.markRepeats.leafAt i =
      if repeatsIn t.root.groups i then (t.leafAt i).collecting else t.leafAt i := by
  simp only [leafAt, markRepeats, List.getD_eq_getElem?_getD, List.getElem?_mapIdx]
  cases t.slots[i]? with
  | none => simp [Leaf.collecting]
  | some l => rfl

theorem repeatsIn_eq_true_iff {groups : List (List Nat)} {i : Nat} :
    repeatsIn groups i = true ↔ ∃ g ∈ groups, 1 < g.count i := by
  simp [repeatsIn]

end Tree

/-! ## Trees that were read -/

/-- A leaf as it is in the normal form of a tree that was read. -/
inductive Leaf.Settled : Leaf → Prop
  | placeholder {name : String} (h : TokenKind.of name = .argument) : Settled (.placeholder name)
  | collector {name : String} (h : TokenKind.of name = .argument) :
      Settled (.argument (some name) (.list []))
  | keyword {name : String} (h : TokenKind.of name = .command) : Settled (.keyword name)
  | option (o : Opt) : Settled (.option o)
  | anyOptions : Settled .anyOptions

namespace Leaf

theorem name?_collecting (l : Leaf) : l.collecting.name? = l.name? := by
  cases l <;> rfl

theorem isWordSlot_collecting (l : Leaf) : l.collecting.isWordSlot = l.isWordSlot := by
  cases l <;> rfl

theorem collecting_ne_placeholder (l : Leaf) (name : String) :
    l.collecting ≠ .placeholder name := by
  intro h
  cases l <;> cases h

theorem Fresh.settled {l : Leaf} (h : l.Fresh) : l.Settled := by
  cases h with
  | placeholder h => exact .placeholder h
  | keyword h => exact .keyword h
  | option o => exact .option o

theorem Fresh.settled_collecting {l : Leaf} (h : l.Fresh) : l.collecting.Settled := by
  cases h with
  | placeholder h => exact .collector h
  | keyword h => exact .keyword h
  | option o => exact .option o

theorem Settled.exists_name {l : Leaf} (h : l.Settled) (hslot : l.isWordSlot = true) :
    ∃ name, l.name? = some name := by
  cases h with
  | placeholder _ => exact ⟨_, rfl⟩
  | collector _ => exact ⟨_, rfl⟩
  | keyword _ => exact ⟨_, rfl⟩
  | option o => cases hslot
  | anyOptions => cases hslot

/-- Two fresh arguments or commands of one name are equal: the name tells which of the two it is. -/
theorem Fresh.eq_of_name_eq {l m : Leaf} (hl : l.Fresh) (hm : m.Fresh) (hlw : l.isWordSlot = true)
    (hmw : m.isWordSlot = true) (hname : l.name? = m.name?) : l = m := by
  cases hl with
  | placeholder hl =>
    cases hm with
    | placeholder hm => rw [Option.some.inj hname]
    | keyword hm =>
      rw [Option.some.inj hname, hm] at hl
      cases hl
    | option o => cases hmw
  | keyword hl =>
    cases hm with
    | placeholder hm =>
      rw [Option.some.inj hname, hm] at hl
      cases hl
    | keyword hm => rw [Option.some.inj hname]
    | option o => cases hmw
  | option o => cases hlw

end Leaf

namespace Tree

/-- The slots hold what the grammar puts there, and each choice of the root has an alternative. -/
structure Read (t : Tree) : Prop where
  slots : ∀ l ∈ t.slots, l.Fresh ∨ l = .anyOptions
  root : t.root.Passable

theorem read_of_parsePattern {registry : Registry} {source : String} {t : Tree}
    (h : (parsePattern registry source).outcome = .ok t) : t.Read :=
  ⟨slots_of_parsePattern h, passable_of_parsePattern h⟩

variable {t : Tree}

theorem Read.leafAt (ht : t.Read) (i : Nat) : (t.leafAt i).Fresh ∨ t.leafAt i = .anyOptions := by
  by_cases hi : i < t.slots.length
  · exact ht.slots _ (leafAt_mem_slots hi)
  · right
    rw [Tree.leafAt, List.getD_eq_getElem?_getD, List.getElem?_eq_none (Nat.le_of_not_lt hi),
      Option.getD_none]

theorem Read.intern (ht : t.Read) : t.intern.Read where
  slots := by
    intro l hl
    obtain ⟨i, _, rfl⟩ := List.mem_map.mp (List.mem_eraseDups.mp hl)
    exact ht.leafAt i
  root := Pattern.passable_map _ ht.root

theorem leafAt_normalize (t : Tree) (i : Nat) :
    t.normalize.leafAt i =
      if repeatsIn t.normalize.root.groups i then (t.intern.leafAt i).collecting
      else t.intern.leafAt i :=
  leafAt_markRepeats t.intern i

theorem settled_leafAt_normalize (ht : t.Read) (i : Nat) : (t.normalize.leafAt i).Settled := by
  rw [leafAt_normalize]
  rcases ht.intern.leafAt i with hfresh | hany
  · split
    · exact hfresh.settled_collecting
    · exact hfresh.settled
  · rw [hany]
    split <;> exact .anyOptions

/-- Each argument and each command has one slot in the normal form. -/
theorem slot_eq_of_name_eq (ht : t.Read) {i j : Nat} (hi : i ∈ t.normalize.root.flat)
    (hj : j ∈ t.normalize.root.flat) (hiw : (t.normalize.leafAt i).isWordSlot = true)
    (hjw : (t.normalize.leafAt j).isWordSlot = true)
    (hname : (t.normalize.leafAt i).name? = (t.normalize.leafAt j).name?) : i = j := by
  -- marking changes neither the name nor the kind of a leaf
  have hmark : ∀ k, (t.normalize.leafAt k).name? = (t.intern.leafAt k).name? ∧
      (t.normalize.leafAt k).isWordSlot = (t.intern.leafAt k).isWordSlot := by
    intro k
    rw [leafAt_normalize]
    split
    · exact ⟨Leaf.name?_collecting _, Leaf.isWordSlot_collecting _⟩
    · exact ⟨rfl, rfl⟩
  rw [(hmark i).2] at hiw
  rw [(hmark j).2] at hjw
  rw [(hmark i).1, (hmark j).1] at hname
  apply leafAt_intern_injective hi hj
  rcases ht.intern.leafAt i with hifresh | hiany
  · rcases ht.intern.leafAt j with hjfresh | hjany
    · exact hifresh.eq_of_name_eq hjfresh hiw hjw hname
    · rw [hjany] at hjw
      cases hjw
  · rw [hiany] at hiw
    cases hiw

/-- An argument that collects no list is in no word of the pattern twice. -/
theorem count_le_one_of_placeholder (ht : t.Read) {i : Nat} {name : String}
    (hi : t.normalize.leafAt i = .placeholder name) {w : List Nat}
    (hw : w ∈ t.normalize.root.words) : w.count i ≤ 1 := by
  have hroot : t.normalize.root.Passable := ht.intern.root
  have hmult : t.normalize.root.multiplicity i ≤ 1 := by
    by_contra hlt
    rw [Nat.not_le, ← Pattern.exists_group_count_iff i hroot] at hlt
    rw [leafAt_normalize, if_pos (repeatsIn_eq_true_iff.mpr hlt)] at hi
    exact Leaf.collecting_ne_placeholder _ name hi
  exact (Pattern.count_le_multiplicity_of_mem_words i hmult w hw).trans hmult

end Tree

end Synopsis
