import Synopsis.Leaf

/-!
# Matchers

A matcher is given the leaves of an invocation that are still left, and the bindings made so far; it
either takes some of the leaves or fails. Matchers combine as the groups of a pattern do: all in
order (`Matcher.all`), each one that fits (`Matcher.each`), the one that leaves least
(`Matcher.fewest`), and one over and over (`Matcher.many`).
Main statements: a combined matcher that fails hands back the state that it was given
(`state_all_of_not_matched` and its kin).
-/

namespace Synopsis

/-- What matching works on. -/
structure MatchState where
  /-- The leaves of the invocation that are not taken yet. -/
  left : List Leaf
  /-- The bindings made so far. -/
  collected : List Leaf
  deriving DecidableEq, Repr

/-- What a matcher ends with. -/
structure Outcome extends MatchState where
  /-- The matcher fitted. -/
  matched : Bool
  deriving DecidableEq, Repr

namespace Outcome

/-- The matcher fitted, and this is the state after it. -/
def success (s : MatchState) : Outcome := ⟨s, true⟩

/-- The matcher did not fit; the state is as before. -/
def failure (s : MatchState) : Outcome := ⟨s, false⟩

/-- The matcher fitted and every leaf of the invocation is taken. -/
def isComplete (o : Outcome) : Bool := o.matched && o.left.isEmpty

/-- The state to go on with: the one reached after a fit, else the one before. -/
def stateOr (o : Outcome) (s : MatchState) : MatchState := if o.matched then o.toMatchState else s

@[simp] theorem matched_success (s : MatchState) : (success s).matched = true := rfl

@[simp] theorem matched_failure (s : MatchState) : (failure s).matched = false := rfl

@[simp] theorem state_success (s : MatchState) : (success s).toMatchState = s := rfl

@[simp] theorem state_failure (s : MatchState) : (failure s).toMatchState = s := rfl

end Outcome

/-- A matcher: from a state to an outcome. -/
abbrev Matcher := MatchState → Outcome

namespace Matcher

/-! ## All in order -/

/-- The state after all matchers in order, if each fits. -/
def chain? : List Matcher → MatchState → Option MatchState
  | [], s => some s
  | m :: ms, s => if (m s).matched then chain? ms (m s).toMatchState else none

/-- All matchers in order, or none. -/
def all (ms : List Matcher) : Matcher := fun s =>
  match chain? ms s with
  | some t => .success t
  | none => .failure s

theorem chain?_append (ms ns : List Matcher) (s : MatchState) :
    chain? (ms ++ ns) s = (chain? ms s).bind (chain? ns) := by
  induction ms generalizing s with
  | nil => rfl
  | cons m ms ih =>
    by_cases h : (m s).matched = true <;> simp [chain?, h, ih]

theorem state_all_of_not_matched {ms : List Matcher} {s : MatchState}
    (h : (all ms s).matched = false) : (all ms s).toMatchState = s := by
  unfold all at h ⊢
  split at h
  · simp at h
  · rfl

/-! ## Each that fits -/

/-- The state after each matcher in order, those that do not fit passed over. -/
def passing : List Matcher → MatchState → MatchState
  | [], s => s
  | m :: ms, s => passing ms ((m s).stateOr s)

/-- Each matcher that fits, in order. -/
def each (ms : List Matcher) : Matcher := fun s => .success (passing ms s)

/-! ## The one that leaves least -/

/-- The better of the best outcome so far and another: one that fits over none, and one that leaves
fewer leaves over one that leaves more; the earlier of two equals. -/
def better (best : Option Outcome) (o : Outcome) : Option Outcome :=
  match best with
  | none => if o.matched then some o else none
  | some b => if o.matched && o.left.length < b.left.length then some o else some b

/-- The matcher that leaves the fewest leaves, each tried from the same state. -/
def fewest (ms : List Matcher) : Matcher := fun s =>
  ((ms.map fun m => m s).foldl better none).getD (.failure s)

/-! ## Over and over -/

/-- The matcher again and again, until it fails or takes nothing. Each round but the last leaves
fewer leaves than the one before. -/
def exhaust (m : Matcher) (s : MatchState) : MatchState :=
  if (m s).matched then
    if (m s).left.length < s.left.length then exhaust m (m s).toMatchState
    else (m s).toMatchState
  else s
termination_by s.left.length

section Rounds

variable {m : Matcher} {s : MatchState}

theorem exhaust_of_lt (h : (m s).matched = true) (hlt : (m s).left.length < s.left.length) :
    exhaust m s = exhaust m (m s).toMatchState := by
  rw [exhaust.eq_def, if_pos h, if_pos hlt]

theorem exhaust_of_not_lt (h : (m s).matched = true) (hlt : ¬ (m s).left.length < s.left.length) :
    exhaust m s = (m s).toMatchState := by
  rw [exhaust.eq_def, if_pos h, if_neg hlt]

theorem exhaust_of_not_matched (h : ¬ (m s).matched = true) : exhaust m s = s := by
  rw [exhaust.eq_def, if_neg h]

end Rounds

/-- The matcher at least once, and then again for as long as it takes something. -/
def many (m : Matcher) : Matcher := fun s =>
  if (m s).matched then .success (exhaust m (m s).toMatchState) else .failure s

theorem many_of_matched {m : Matcher} {s : MatchState} (h : (m s).matched = true) :
    many m s = .success (exhaust m (m s).toMatchState) := if_pos h

theorem many_of_not_matched {m : Matcher} {s : MatchState} (h : ¬ (m s).matched = true) :
    many m s = .failure s := if_neg h

theorem state_many_of_not_matched {m : Matcher} {s : MatchState}
    (h : (many m s).matched = false) : (many m s).toMatchState = s := by
  unfold many at h ⊢
  split at h
  · simp at h
  · next hm => simp [hm]

end Matcher

end Synopsis
