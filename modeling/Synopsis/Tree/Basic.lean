import Synopsis.Leaf
import Synopsis.Pattern.Basic

/-!
# Trees: patterns over numbered slots

A tree is a pattern whose leaves are numbers, together with the slots that the numbers refer to.
Several places of the pattern may share a slot. `Tree.resolve` puts the leaves back into the places,
and all that a tree shows or matches goes through it, so that two trees with the same resolved
pattern cannot be told apart but by their numbers.
-/

namespace Synopsis

/-- A pattern over numbered slots, and what is in the slots. -/
structure Tree where
  /-- The leaves, by number. -/
  slots : List Leaf
  /-- The pattern, a slot's number for each leaf. -/
  root : Pattern Nat

namespace Tree

/-- The tree with no slot and nothing required. -/
def empty : Tree := ⟨[], .required []⟩

/-- The leaf in a slot. Only numbers of slots occur in a tree; for any other number the answer is
arbitrary. -/
def leafAt (t : Tree) (i : Nat) : Leaf := t.slots.getD i .anyOptions

/-- A part of the tree's pattern with the leaves in their places. -/
def resolve (t : Tree) (node : Pattern Nat) : Pattern Leaf := node.map t.leafAt

/-- The tree's pattern with the leaves in their places. -/
def pattern (t : Tree) : Pattern Leaf := t.resolve t.root

/-- The leaves of the tree from left to right, repeats included. -/
def leaves (t : Tree) : List Leaf := t.root.flat.map t.leafAt

theorem flat_pattern (t : Tree) : t.pattern.flat = t.leaves := Pattern.flat_map ..

/-- A part of the tree as shown to a reader. -/
def displayNode (t : Tree) (node : Pattern Nat) : String := (t.resolve node).display Leaf.display

/-- The tree as shown to a reader. -/
def display (t : Tree) : String := t.displayNode t.root

/-- The tree of the part at a path, over the same slots. -/
def narrow? (t : Tree) (path : List Nat) : Option Tree :=
  (t.root.descend? path).map fun node => { t with root := node }

/-- Every number in the tree is that of a slot. -/
def InRange (t : Tree) : Prop := ∀ i ∈ t.root.flat, i < t.slots.length

end Tree

end Synopsis
