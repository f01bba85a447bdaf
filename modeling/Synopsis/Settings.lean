import Synopsis.Mode
import Synopsis.Text.Blank

/-!
# Settings

What a help text does not say about the behaviour of its interface: whether help is answered, which
version is reported, and what becomes of options that the help text does not mention. Each setting
may be left open and then has a default.
-/

namespace Synopsis

open Text

/-- What becomes of an option that the help text does not mention. -/
inductive UnknownPolicy where
  /-- It is a fault. -/
  | reject
  /-- It is taken up. -/
  | register
  deriving DecidableEq, Repr, Inhabited

/-- The mode in which an invocation is read under the policy. -/
def UnknownPolicy.mode : UnknownPolicy → Mode
  | reject => .strict
  | register => .lenient

/-- The settings of an interface; each may be left open. -/
structure Settings where
  /-- Help is answered with the help text. -/
  help : Option Bool
  /-- The version to report. -/
  version : Option String
  /-- What becomes of unknown options. -/
  unknownOptions : Option UnknownPolicy
  deriving DecidableEq, Repr

/-- What is wrong with settings. -/
inductive SettingsFault where
  /-- The document cannot be read as settings. -/
  | malformed
  /-- The settings are read and some are not allowed. -/
  | invalid (problems : List String)
  deriving DecidableEq, Repr

/-- The words for settings that are not allowed: one problem on a line. -/
def SettingsFault.report (problems : List String) : String :=
  "validation errors:\n" ++ String.intercalate "\n" (problems.map fun p => "  - " ++ p)

namespace Settings

/-- All settings left open. -/
def default : Settings := ⟨none, none, none⟩

/-- Help is answered unless it is switched off. -/
def helpEnabled (s : Settings) : Bool := s.help.getD true

/-- The policy on unknown options; they are faults unless the settings say otherwise. -/
def policy (s : Settings) : UnknownPolicy := s.unknownOptions.getD .reject

/-- The mode in which invocations are read. -/
def mode (s : Settings) : Mode := s.policy.mode

/-- What is not allowed about the settings: a version of blanks only. -/
def problems (s : Settings) : List String :=
  match s.version with
  | some v => if (trim v.toList).isEmpty then ["version must not be empty"] else []
  | none => []

/-- Settings that are allowed, or the fault that they are not. -/
def validate (s : Settings) : Except SettingsFault Settings :=
  match s.problems with
  | [] => .ok s
  | ps => .error (.invalid ps)

end Settings

end Synopsis
