import Synopsis.Proofs.Normal
import Synopsis.Proofs.RoundTrip

/-!
# The numbers of a tree that was read

Each leaf that the grammar meets gets a slot of its own and stands in one place, and closing a level
only groups what is on it. So the numbers of a tree that was read, from left to right, are those of
its slots in order (`flat_of_parsePattern`). In particular none is out of range, neither there
(`inRange_of_parsePattern`) nor in the normal form (`inRange_normalize`).
-/

namespace Synopsis

/-! ## Closing a level -/

namespace Level

/-- The alternatives of a level, each as a single pattern; empty ones are dropped. -/
def alternatives (l : Level) : List (Pattern Nat) :=
  (l.finished ++ [l.current]).flatMap asAlternative

/-- The patterns that alternatives amount to: a choice if there is more than one. -/
def chosen : List (Pattern Nat) → List (Pattern Nat)
  | p :: q :: ps => [.either (p :: q :: ps)]
  | ps => ps

theorem close_of_no_bar {l : Level} (h : l.finished = []) : l.close = l.current := by
  rw [close, h]

theorem close_of_bar {l : Level} (h : l.finished ≠ []) : l.close = chosen l.alternatives := by
  unfold close
  split
  · next hnil => exact absurd hnil h
  · rfl

/-- The numbers on a level, from left to right. -/
def flat (l : Level) : List Nat := (l.finished ++ [l.current]).flatMap Pattern.flatAll

theorem flat_empty : Level.empty.flat = [] := rfl

theorem flat_add (l : Level) (atoms : List (Pattern Nat)) :
    (l.add atoms).flat = l.flat ++ Pattern.flatAll atoms := by
  simp only [flat, add, List.flatMap_append, List.flatMap_singleton, Tree.flatAll_append,
    List.append_assoc]

theorem flat_startAlternative (l : Level) : l.startAlternative.flat = l.flat := by
  simp [flat, startAlternative, Pattern.flatAll]

theorem flatAll_asAlternative (ps : List (Pattern Nat)) :
    Pattern.flatAll (asAlternative ps) = Pattern.flatAll ps := by
  match ps with
  | [] => rfl
  | [p] => rfl
  | p :: q :: ps => exact Tree.flatAll_singleton _

theorem flatAll_alternatives (l : Level) : Pattern.flatAll l.alternatives = l.flat := by
  rw [alternatives, flat, Pattern.flatAll_eq_flatMap, List.flatMap_assoc]
  refine List.flatMap_congr fun ps _ => ?_
  rw [← Pattern.flatAll_eq_flatMap, flatAll_asAlternative]

theorem flatAll_chosen (ps : List (Pattern Nat)) :
    Pattern.flatAll (chosen ps) = Pattern.flatAll ps := by
  match ps with
  | [] => rfl
  | [p] => rfl
  | p :: q :: ps => exact Tree.flatAll_singleton _

/-- Closing a level keeps every number in its place. -/
theorem flatAll_close (l : Level) : Pattern.flatAll l.close = l.flat := by
  by_cases hfinished : l.finished = []
  · rw [close_of_no_bar hfinished, flat, hfinished, List.nil_append, List.flatMap_singleton]
  · rw [close_of_bar hfinished, flatAll_chosen, flatAll_alternatives]

end Level

/-! ## Reading -/

namespace Draft

/-- The numbers on the levels of a stack, the outermost first. -/
def outerFlat : List (Bracket × Level) → List Nat
  | [] => []
  | (_, level) :: outer => outerFlat outer ++ level.flat

/-- **`d.InOrder`**: the numbers read so far are those of the slots, in order. -/
def InOrder (d : Draft) : Prop := outerFlat d.outer ++ d.level.flat = List.range d.slots.length

theorem flatAll_of_maybeRepeated {atoms taken : List (Pattern Nat)} (h : MaybeRepeated atoms taken) :
    Pattern.flatAll taken = Pattern.flatAll atoms := by
  rcases h with rfl | rfl
  · rfl
  · rw [Tree.flatAll_singleton, Pattern.flat]
    cases atoms with
    | nil => rfl
    | cons p ps =>
      cases ps with
      | nil => exact (Tree.flatAll_singleton p).symm
      | cons q ps => rfl

theorem flatAll_placesFor (d : Draft) (leaves : List Leaf) :
    Pattern.flatAll (d.placesFor leaves) = List.range' d.slots.length leaves.length := by
  rw [placesFor, Pattern.flatAll_eq_flatMap, List.flatMap_map]
  exact List.flatMap_singleton' _

/-- Leaves that are taken up get the next numbers. -/
theorem InOrder.add_leaves {d : Draft} (hd : d.InOrder) (registry : Registry) {leaves : List Leaf}
    {taken : List (Pattern Nat)}
    (htaken : Pattern.flatAll taken = List.range' d.slots.length leaves.length) :
    (({ d with registry := registry }.withSlots leaves).add taken).InOrder := by
  show outerFlat d.outer ++ (d.level.add taken).flat = List.range (d.slots ++ leaves).length
  rw [Level.flat_add, ← List.append_assoc, hd, htaken, List.length_append, List.range_eq_range',
    List.range_eq_range', ← List.range'_append_1, Nat.zero_add]

theorem inOrder_of_step {d d' : Draft} (hd : d.InOrder) (h : d.Step d') : d'.InOrder := by
  cases h with
  | opened b =>
    show (outerFlat d.outer ++ d.level.flat) ++ Level.empty.flat = _
    rw [Level.flat_empty, List.append_nil]
    exact hd
  | bar =>
    show outerFlat d.outer ++ d.level.startAlternative.flat = _
    rw [Level.flat_startAlternative]
    exact hd
  | @closed b level outer taken houter htaken =>
    show outerFlat outer ++ (level.add taken).flat = _
    rw [Level.flat_add, flatAll_of_maybeRepeated htaken, Tree.flatAll_singleton, Tree.flat_group,
      Level.flatAll_close, ← List.append_assoc]
    rw [InOrder, houter] at hd
    exact hd
  | leaves _ htaken =>
    refine hd.add_leaves _ ?_
    rw [flatAll_of_maybeRepeated htaken, flatAll_placesFor]
  | anyOptions htaken =>
    refine hd.add_leaves d.registry ?_
    rw [flatAll_of_maybeRepeated htaken, Tree.flatAll_singleton, Pattern.flat, flatAll_placesFor]

end Draft

/-- The numbers of a tree that was read are those of its slots, each once and in order. -/
theorem flat_of_parsePattern {registry : Registry} {source : String} {t : Tree}
    (h : (parsePattern registry source).outcome = .ok t) :
    t.root.flat = List.range t.slots.length := by
  obtain ⟨d, hd, houter, rfl⟩ :=
    Draft.exists_draft_of_run (fun _ _ hinv => Draft.inOrder_of_step hinv)
      (d := .start .grammar registry) rfl h
  rw [Draft.InOrder, houter] at hd
  exact (Level.flatAll_close d.level).trans hd

theorem inRange_of_parsePattern {registry : Registry} {source : String} {t : Tree}
    (h : (parsePattern registry source).outcome = .ok t) : t.InRange := by
  intro i hi
  rw [flat_of_parsePattern h] at hi
  exact List.mem_range.mp hi

/-- No number is out of range in a normal form. -/
theorem Tree.inRange_normalize (t : Tree) : t.normalize.InRange := by
  intro i hi
  have hlength : t.normalize.slots.length = t.intern.slots.length := List.length_mapIdx
  rw [hlength]
  exact t.inRange_intern i hi

end Synopsis
