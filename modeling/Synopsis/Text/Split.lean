/-!
# Cutting a text

Two ways to divide a text: at the first occurrence of a separator (`cut?`), and at its line ends
(`lines`). Main statements: the two sides of a cut and the separator give the text back
(`cut?_append`), and a text without the separator has no cut (`cut?_eq_none_iff`).
-/

namespace Synopsis.Text

/-! ## Cutting at a separator -/

/-- The text before and after the first occurrence of a separator, if it occurs. -/
def cut? (sep : List Char) : List Char → Option (List Char × List Char)
  | [] => if sep.isEmpty then some ([], []) else none
  | c :: cs =>
    if sep.isPrefixOf (c :: cs) then some ([], (c :: cs).drop sep.length)
    else (cut? sep cs).map fun r => (c :: r.1, r.2)

/-- Nothing but the separator itself is lost by a cut. -/
theorem cut?_append {sep cs before after : List Char} (h : cut? sep cs = some (before, after)) :
    cs = before ++ sep ++ after := by
  induction cs generalizing before with
  | nil =>
    cases sep <;> simp_all [cut?]
  | cons c cs ih =>
    rw [cut?] at h
    split at h
    · next hp =>
      obtain ⟨t, ht⟩ := List.isPrefixOf_iff_prefix.mp hp
      simp only [Option.some.injEq, Prod.mk.injEq] at h
      obtain ⟨rfl, rfl⟩ := h
      simp [← ht]
    · obtain ⟨r, hr, he⟩ := Option.map_eq_some_iff.mp h
      simp only [Prod.mk.injEq] at he
      obtain ⟨rfl, rfl⟩ := he
      simpa using ih hr

/-- There is no cut exactly when the separator does not occur. -/
theorem cut?_eq_none_iff (sep cs : List Char) : cut? sep cs = none ↔ ¬ sep <:+: cs := by
  induction cs with
  | nil => cases sep <;> simp [cut?]
  | cons c cs ih =>
    rw [cut?, List.infix_cons_iff]
    by_cases hp : sep <+: c :: cs
    · simp [hp, List.isPrefixOf_iff_prefix.mpr hp]
    · have hp' : sep.isPrefixOf (c :: cs) = false := by
        simpa [← List.isPrefixOf_iff_prefix] using hp
      simp [hp, hp', ih]

/-! ## Lines -/

/-- A line as it stands before its line feed: one carriage return at its end belongs to the line
ending. -/
def dropReturn (line : List Char) : List Char :=
  if line.getLast? = some '\r' then line.dropLast else line

/-- The lines of a text, with `pending` read so far of the first. -/
def linesFrom (pending : List Char) : List Char → List (List Char)
  | [] => if pending.isEmpty then [] else [pending]
  | c :: cs =>
    if c = '\n' then dropReturn pending :: linesFrom [] cs else linesFrom (pending ++ [c]) cs

/-- The lines of a text without their endings. A line feed ends a line, so that none follows a
final one, and text after the last line feed is a line as it stands. -/
def lines (cs : List Char) : List (List Char) := linesFrom [] cs

end Synopsis.Text
