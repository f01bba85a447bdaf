import Synopsis.Opt

/-!
# Modes of reading

Options are read both from a usage pattern and from an invocation. The mode says who is to blame
when that fails, and what happens to an option that is not in the registry.
-/

namespace Synopsis

/-- How words are read. -/
inductive Mode where
  /-- A usage pattern: faults are the author's, and an option may be met here first. -/
  | grammar
  /-- An invocation in which an unknown option is a fault. -/
  | strict
  /-- An invocation in which an unknown option is taken up. -/
  | lenient
  deriving DecidableEq, Repr, Inhabited

namespace Mode

/-- An option that is not in the registry is added to it. -/
def registersUnknown (m : Mode) : Bool := m != strict

/-- The occurrence that an option is read as when it is met for the first time. In an invocation it
holds the value written with it, or true; in a pattern it has no value yet. -/
def firstOccurrence (m : Mode) (o : Opt) (inline : Option String) : Opt :=
  match m, inline with
  | lenient, some v => o.given (.str v)
  | lenient, none => o.given (.bool true)
  | _, _ => o

@[simp] theorem registersUnknown_eq_false_iff (m : Mode) :
    m.registersUnknown = false ↔ m = strict := by
  cases m <;> decide

theorem firstOccurrence_names (m : Mode) (o : Opt) (inline : Option String) :
    (m.firstOccurrence o inline).short = o.short ∧ (m.firstOccurrence o inline).long = o.long ∧
      (m.firstOccurrence o inline).arity = o.arity := by
  unfold firstOccurrence
  split <;> exact ⟨rfl, rfl, rfl⟩

end Mode

end Synopsis
