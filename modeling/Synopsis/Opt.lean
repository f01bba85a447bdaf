import Synopsis.Value

/-!
# Options and registries

An option has a short name, a long name, or both, and says how many values it takes. The same
type stands for an option described in a help text and for one occurrence of it on a command line,
where `value` holds what was given. A registry is the list of the options known so far, in the
order in which they were met.
-/

namespace Synopsis

/-- An option, described or given. Names include their dashes. -/
structure Opt where
  /-- The name with one dash, such as `-v`. -/
  short : Option String
  /-- The name with two dashes, such as `--verbose`. -/
  long : Option String
  /-- How many values one occurrence takes. -/
  arity : Nat
  /-- The default in a description, the value given in an occurrence. -/
  value : Value
  deriving DecidableEq, Repr, Inhabited

namespace Opt

/-- An option as it stands before any occurrence: its value is false. -/
def declared (short long : Option String) (arity : Nat) : Opt := ⟨short, long, arity, .bool false⟩

/-- A flag known by its short name only. -/
def ofShort (short : String) : Opt := declared (some short) none 0

/-- An option known by its long name only. -/
def ofLong (long : String) (arity : Nat) : Opt := declared none (some long) arity

/-- The name under which the option is reported: the long one if it has one, else the short one,
else the empty text. -/
def name (o : Opt) : String := (o.long.or o.short).getD ""

/-- Both are the same option: their names agree, whatever their values. -/
def sameNames (o p : Opt) : Bool := o.short == p.short && o.long == p.long

/-- The option with the given value. -/
def given (o : Opt) (v : Value) : Opt := { o with value := v }

theorem sameNames_iff (o p : Opt) :
    o.sameNames p = true ↔ o.short = p.short ∧ o.long = p.long := by
  simp [sameNames]

theorem sameNames_congr {o p : Opt} (h : p.sameNames o = true) (q : Opt) :
    p.sameNames q = o.sameNames q := by
  obtain ⟨hshort, hlong⟩ := (sameNames_iff p o).mp h
  rw [sameNames, sameNames, hshort, hlong]

@[simp] theorem sameNames_given (o p : Opt) (v : Value) :
    (o.given v).sameNames p = o.sameNames p := rfl

@[simp] theorem name_given (o : Opt) (v : Value) : (o.given v).name = o.name := rfl

end Opt

/-- The options known so far, in the order in which they were met. -/
abbrev Registry := List Opt

namespace Registry

/-- The entries whose short name is the given one. -/
def shortCandidates (r : Registry) (name : String) : List Opt :=
  r.filter fun o => o.short == some name

/-- The entries whose long name the given one stands for: the exact ones if there are any,
otherwise those that it abbreviates. -/
def longCandidates (r : Registry) (name : String) : List Opt :=
  match r.filter fun o => o.long == some name with
  | [] => r.filter fun o => o.long.any fun long => name.toList.isPrefixOf long.toList
  | exacts => exacts

theorem mem_of_mem_shortCandidates {r : Registry} {name : String} {o : Opt}
    (h : o ∈ r.shortCandidates name) : o ∈ r ∧ o.short = some name := by
  simpa [shortCandidates] using h

theorem mem_of_mem_longCandidates {r : Registry} {name : String} {o : Opt}
    (h : o ∈ r.longCandidates name) : o ∈ r := by
  unfold longCandidates at h
  split at h <;> exact (List.mem_filter.mp h).1

end Registry

end Synopsis
