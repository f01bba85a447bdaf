import Synopsis.Pattern.Expansion
import Synopsis.Tree.Basic

/-!
# The normal form of a tree

A tree as first read has a slot for each place. Its normal form shares one slot among equal leaves
(`Tree.intern`), and then an argument that can be met twice on one way through the pattern collects
a list (`Tree.markRepeats`).
Main statement: sharing slots changes no leaf in its place (`pattern_intern`).
-/

namespace Synopsis

/-- The leaf as it is when it collects a list; only an argument does. -/
def Leaf.collecting : Leaf → Leaf
  | argument name _ => argument name (.list [])
  | l => l

namespace Tree

/-! ## One slot per leaf -/

/-- Equal leaves share a slot, and slots stand in the order in which the tree meets them first. -/
def intern (t : Tree) : Tree :=
  let shared := t.leaves.eraseDups
  { slots := shared, root := t.root.map fun i => shared.idxOf (t.leafAt i) }

theorem leafAt_intern {t : Tree} {i : Nat} (h : i ∈ t.root.flat) :
    t.intern.leafAt (t.leaves.eraseDups.idxOf (t.leafAt i)) = t.leafAt i := by
  have hmem : t.leafAt i ∈ t.leaves.eraseDups :=
    List.mem_eraseDups.mpr (List.mem_map_of_mem h)
  have hlt := List.idxOf_lt_length_of_mem hmem
  show t.leaves.eraseDups.getD (t.leaves.eraseDups.idxOf (t.leafAt i)) _ = t.leafAt i
  rw [List.getD_eq_getElem?_getD, List.getElem?_eq_getElem hlt, Option.getD_some,
    List.getElem_idxOf hlt]

/-- Sharing slots leaves every leaf in its place. -/
theorem pattern_intern (t : Tree) : t.intern.pattern = t.pattern := by
  show (t.root.map fun i => t.leaves.eraseDups.idxOf (t.leafAt i)).map t.intern.leafAt = _
  rw [Pattern.map_map]
  exact Pattern.map_congr fun i hi => leafAt_intern hi

/-! ## Arguments that repeat -/

/-- Some group meets the slot more than once. -/
def repeatsIn (groups : List (List Nat)) (i : Nat) : Bool := groups.any fun g => 1 < g.count i

/-- Arguments met more than once on some way through the pattern collect lists. -/
def markRepeats (t : Tree) : Tree :=
  let groups := t.root.groups
  { t with slots := t.slots.mapIdx fun i l => if repeatsIn groups i then l.collecting else l }

/-- The normal form: one slot per leaf, and lists for arguments that repeat. -/
def normalize (t : Tree) : Tree := t.intern.markRepeats

end Tree

end Synopsis
