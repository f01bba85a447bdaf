import Synopsis.Opt
import Synopsis.Text.Blank
import Synopsis.Text.Split

/-!
# Option descriptions

A help text describes an option on a line that starts with a dash, such as

    -o FILE, --output=FILE  Where to write [default: out.txt]

The part before the first double space gives the names and, by any word that is no name, says that
the option takes a value. The rest is prose; for an option with a value it may hold a default.
Lines after an option line that do not start with a dash continue its description.
Main statements: each option line opens exactly one block (`length_blocks`).
-/

namespace Synopsis.Description

open Text

/-! ## Names and arity -/

/-- The word is a long name. -/
def isLongName (w : List Char) : Bool := ['-', '-'].isPrefixOf w

/-- The word is a short name: it starts with one dash, and something follows. -/
def isShortName (w : List Char) : Bool :=
  w.head? == some '-' && !isLongName w && 1 < w.length

/-- Commas and equal signs separate words in front of the double space. -/
def unpunctuate (c : Char) : Char := if c = ',' ∨ c = '=' then ' ' else c

/-- The words that name an option or stand for its value. -/
def specWords (spec : List Char) : List (List Char) := words (spec.map unpunctuate)

/-- The option takes a value when some word is neither a long nor a short name. -/
def arityOf (ws : List (List Char)) : Nat :=
  if ws.all fun w => isLongName w || isShortName w then 0 else 1

/-! ## Defaults -/

/-- The text before the last closing bracket of a line, if there is one. -/
def beforeLastBracket? (line : List Char) : Option (List Char) :=
  if line.contains ']' then some ((line.reverse.dropWhile (· != ']')).drop 1).reverse else none

/-- The mark that introduces a default. -/
def defaultMark : List Char := "[default:".toList

/-- The default introduced right here: the mark, at least one blank, and then the text up to the
last closing bracket of its line. -/
def defaultHere? (cs : List Char) : Option (List Char) :=
  if defaultMark.isPrefixOf cs then
    match cs.drop defaultMark.length with
    | [] => none
    | c :: rest =>
      if isBlank c then beforeLastBracket? ((trimStart rest).takeWhile (· != '\n')) else none
  else none

/-- The first default in a description. -/
def default? : List Char → Option (List Char)
  | [] => none
  | c :: cs => (defaultHere? (c :: cs)).or (default? cs)

/-! ## One description -/

/-- The names, and the prose after the first double space. -/
def sections (line : List Char) : List Char × List Char :=
  (cut? [' ', ' '] line).getD (line, [])

/-- The option that a description describes. Of several names of one kind the last counts, and
only an option with a value has a default. -/
def parse (text : List Char) : Opt :=
  let parts := sections (trim text)
  let ws := specWords parts.1
  { short := (ws.filter isShortName).getLast?.map String.ofList
    long := (ws.filter isLongName).getLast?.map String.ofList
    arity := arityOf ws
    value :=
      match arityOf ws, default? parts.2 with
      | 1, some v => .str (String.ofList v)
      | _, _ => .bool false }

/-! ## Descriptions in a help text -/

/-- The line opens the description of an option. -/
def opensBlock (line : List Char) : Bool := (trimStart line).head? == some '-'

/-- The descriptions among the lines: each runs from its option line to the line before the next
one. -/
def blocks : List (List Char) → List (List Char)
  | [] => []
  | l :: ls =>
    if opensBlock l then
      (trimStart l ++ (ls.takeWhile fun m => !opensBlock m).flatMap ('\n' :: ·)) :: blocks ls
    else blocks ls

/-- There are as many descriptions as option lines. -/
theorem length_blocks (ls : List (List Char)) :
    (blocks ls).length = (ls.filter opensBlock).length := by
  induction ls with
  | nil => rfl
  | cons l ls ih => by_cases h : opensBlock l = true <;> simp [blocks, h, ih]

end Synopsis.Description

namespace Synopsis

/-- The option that one description describes. -/
def Opt.ofDescription (text : String) : Opt := Description.parse text.toList

/-- The options that a help text describes, in order. -/
def Registry.ofHelp (help : String) : Registry :=
  (Description.blocks (Text.lines help.toList)).map Description.parse

end Synopsis
