/-!
# Classes of characters

A class is a finite union of inclusive ranges of code points, the form in which character
properties are tabulated. Membership is decided by a scan of the ranges.
-/

namespace Synopsis.Text

/-- A class of characters: inclusive ranges of code points, in any order. -/
abbrev CharClass := List (Nat × Nat)

/-- The character lies in one of the ranges. -/
def CharClass.contains (k : CharClass) (c : Char) : Bool :=
  k.any fun r => r.1 ≤ c.toNat && c.toNat ≤ r.2

theorem CharClass.contains_iff (k : CharClass) (c : Char) :
    k.contains c = true ↔ ∃ r ∈ k, r.1 ≤ c.toNat ∧ c.toNat ≤ r.2 := by
  simp [CharClass.contains]

end Synopsis.Text
