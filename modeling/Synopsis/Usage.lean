import Synopsis.Failure
import Synopsis.Text.Blank

/-!
# The usage section of a help text

A help text has one usage section. It starts at the header `usage:`, in any mixture of cases, and
ends before the first blank line. The section as it stands is shown to users; its formal pattern
has the header and the program's name taken out, and a bar wherever the program's name comes again.
-/

namespace Synopsis

open Text

/-- Why a help text has no usage section to work with. -/
inductive UsageFault where
  /-- There is no header. -/
  | missing
  /-- There is more than one header. -/
  | repeated
  deriving DecidableEq, Repr

/-- The words of the fault. -/
def UsageFault.message : UsageFault → String
  | missing => "\"usage:\" (case-insensitive) not found."
  | repeated => "More than one \"usage:\" (case-insensitive)."

namespace Usage

/-! ## The header -/

/-- The characters that may stand at each place of the header. The long s is a lower-case form of
the letter S. -/
def headerForms : List (List Char) :=
  [['u', 'U'], ['s', 'S', 'ſ'], ['a', 'A'], ['g', 'G'], ['e', 'E'], [':']]

/-- The text starts with a character of each of the given forms, in order. -/
def startsWithForms : List (List Char) → List Char → Bool
  | [], _ => true
  | _ :: _, [] => false
  | f :: fs, c :: cs => f.contains c && startsWithForms fs cs

/-- The text starts with the header. -/
def startsHeader (cs : List Char) : Bool := startsWithForms headerForms cs

/-- The rest of the text from each header in it. -/
def fromHeaders : List Char → List (List Char)
  | [] => []
  | c :: cs =>
    if startsHeader (c :: cs) then (c :: cs) :: fromHeaders cs else fromHeaders cs

/-! ## The section -/

/-- The text up to the first line feed after which only blanks come before the next line feed. -/
def untilBlankLine : List Char → List Char
  | [] => []
  | c :: cs =>
    if c = '\n' ∧ '\n' ∈ cs.takeWhile isBlank then [] else c :: untilBlankLine cs

/-- The usage section of a help text, as it is shown to users. A text without one, or with more than
one, is malformed as a pattern is. -/
def sectionOf (help : String) : Except Failure String :=
  match fromHeaders help.toList with
  | [] => .error (.grammar UsageFault.missing.message)
  | [cs] => .ok (String.ofList (trim (untilBlankLine cs)))
  | _ => .error (.grammar UsageFault.repeated.message)

/-! ## The formal pattern -/

/-- The words after the program's name, with a bar in place of each further mention of it. -/
def formalWords : List (List Char) → List (List Char)
  | _ :: program :: ws => ws.map fun w => if w = program then ['|'] else w
  | _ => []

/-- The formal pattern of a usage section: the first word is the header, the second the program's
name. -/
def formal (usage : String) : String :=
  String.intercalate " " ((formalWords (words usage.toList)).map String.ofList)

end Usage

end Synopsis
