/-!
# Patterns

A pattern is a tree of groups over leaves of some type: all children in order, any of them that fit,
exactly one of them, or one child repeated. This module has the tree, its walk from left to right
(`flat`), the renaming of its leaves (`map`), its parts (`descend?`) and an induction principle that
gives the hypothesis for every child of a group.
-/

namespace Synopsis

/-- A tree of groups over leaves of type `α`. -/
inductive Pattern (α : Type) where
  /-- A single leaf. -/
  | leaf (a : α)
  /-- All children, in order. -/
  | required (children : List (Pattern α))
  /-- Those children that fit; the group itself always does. -/
  | optional (children : List (Pattern α))
  /-- Exactly one child. -/
  | either (children : List (Pattern α))
  /-- The child at least once. -/
  | oneOrMore (child : Pattern α)

namespace Pattern

variable {α β γ : Type}

instance [Inhabited α] : Inhabited (Pattern α) := ⟨leaf default⟩

/-! ## Induction -/

/-- To show a property of every pattern, show it of a leaf, and of a group given it holds of the
children. -/
@[elab_as_elim]
theorem ind {P : Pattern α → Prop} (leaf : ∀ a, P (.leaf a))
    (required : ∀ ps, (∀ p ∈ ps, P p) → P (.required ps))
    (optional : ∀ ps, (∀ p ∈ ps, P p) → P (.optional ps))
    (either : ∀ ps, (∀ p ∈ ps, P p) → P (.either ps))
    (oneOrMore : ∀ p, P p → P (.oneOrMore p)) (p : Pattern α) : P p :=
  @Pattern.rec α P (fun ps => ∀ p ∈ ps, P p) leaf required optional either oneOrMore
    (fun _ h => absurd h List.not_mem_nil)
    (fun _ _ hp hps => List.forall_mem_cons.mpr ⟨hp, hps⟩) p

/-! ## The leaves from left to right -/

mutual

/-- The leaves of a pattern from left to right, repeats included. -/
def flat : Pattern α → List α
  | leaf a => [a]
  | required ps => flatAll ps
  | optional ps => flatAll ps
  | either ps => flatAll ps
  | oneOrMore p => p.flat

/-- The leaves of several patterns, one pattern after the other. -/
def flatAll : List (Pattern α) → List α
  | [] => []
  | p :: ps => p.flat ++ flatAll ps

end

theorem flatAll_eq_flatMap (ps : List (Pattern α)) : flatAll ps = ps.flatMap flat := by
  induction ps with
  | nil => rfl
  | cons p ps ih => simp [flatAll, ih]

theorem mem_flatAll {a : α} {ps : List (Pattern α)} : a ∈ flatAll ps ↔ ∃ p ∈ ps, a ∈ p.flat := by
  rw [flatAll_eq_flatMap, List.mem_flatMap]

/-! ## Renaming leaves -/

mutual

/-- The pattern of the same shape with `f` applied to every leaf. -/
def map (f : α → β) : Pattern α → Pattern β
  | leaf a => leaf (f a)
  | required ps => required (mapAll f ps)
  | optional ps => optional (mapAll f ps)
  | either ps => either (mapAll f ps)
  | oneOrMore p => oneOrMore (p.map f)

/-- Each of several patterns with `f` applied to its leaves. -/
def mapAll (f : α → β) : List (Pattern α) → List (Pattern β)
  | [] => []
  | p :: ps => p.map f :: mapAll f ps

end

theorem mapAll_eq_map (f : α → β) (ps : List (Pattern α)) : mapAll f ps = ps.map (map f) := by
  induction ps with
  | nil => rfl
  | cons p ps ih => simp [mapAll, ih]

theorem flat_map (f : α → β) (p : Pattern α) : (p.map f).flat = p.flat.map f := by
  induction p using Pattern.ind with
  | leaf a => rfl
  | required ps ih | optional ps ih | either ps ih =>
    simp only [map, flat, flatAll_eq_flatMap, mapAll_eq_map, List.flatMap_map, List.map_flatMap]
    simp only [List.flatMap_def]
    exact congrArg List.flatten (List.map_congr_left ih)
  | oneOrMore p ih => simpa [map, flat] using ih

theorem map_map (g : β → γ) (f : α → β) (p : Pattern α) : (p.map f).map g = p.map (g ∘ f) := by
  induction p using Pattern.ind with
  | leaf a => rfl
  | required ps ih | optional ps ih | either ps ih => simpa [map, mapAll_eq_map] using ih
  | oneOrMore p ih => simp [map, ih]

/-- Renamings that agree on the leaves of a pattern rename it alike. -/
theorem map_congr {f g : α → β} {p : Pattern α} (h : ∀ a ∈ p.flat, f a = g a) :
    p.map f = p.map g := by
  induction p using Pattern.ind with
  | leaf a => simpa [map, flat] using h
  | required ps ih | optional ps ih | either ps ih =>
    simp only [flat, flatAll_eq_flatMap, List.mem_flatMap, forall_exists_index, and_imp] at h
    simp only [map, mapAll_eq_map]
    congr 1
    exact List.map_congr_left fun p hp => ih p hp fun a ha => h a p hp ha
  | oneOrMore p ih => simpa [map] using ih (by simpa [flat] using h)

/-! ## Parts -/

/-- The children of a pattern, from left to right. -/
def children : Pattern α → List (Pattern α)
  | leaf _ => []
  | required ps => ps
  | optional ps => ps
  | either ps => ps
  | oneOrMore p => [p]

/-- The part reached by taking, one after the other, the child with each given number. -/
def descend? (p : Pattern α) : List Nat → Option (Pattern α)
  | [] => some p
  | i :: path => p.children[i]?.bind fun child => child.descend? path

/-! ## Display -/

/-- A group as shown to a reader: its label and its children in parentheses. -/
def displayGroup (label : String) (shown : List String) : String :=
  label ++ "(" ++ String.intercalate ", " shown ++ ")"

mutual

/-- The pattern as shown to a reader, with `f` for its leaves. -/
def display (f : α → String) : Pattern α → String
  | leaf a => f a
  | required ps => displayGroup "Required" (displayAll f ps)
  | optional ps => displayGroup "Optional" (displayAll f ps)
  | either ps => displayGroup "Either" (displayAll f ps)
  | oneOrMore p => displayGroup "OneOrMore" [p.display f]

/-- Each of several patterns as shown to a reader. -/
def displayAll (f : α → String) : List (Pattern α) → List String
  | [] => []
  | p :: ps => p.display f :: displayAll f ps

end

end Pattern

end Synopsis
