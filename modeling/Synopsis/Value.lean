import Synopsis.Text.Json
import Synopsis.Text.Quoted

/-!
# Values

What a name is bound to: nothing yet, a truth value, one text, or a list of texts. A value is
written in two ways, for a reader (`Value.display`) and as JSON (`Value.json`).
-/

namespace Synopsis

open Text

/-- What a name of a command line is bound to. -/
inductive Value where
  /-- Nothing was given. -/
  | null
  /-- A flag or a command, given or not. -/
  | bool (b : Bool)
  /-- One text. -/
  | str (s : String)
  /-- The texts given, in order. -/
  | list (items : List String)
  deriving DecidableEq, Repr, Inhabited

namespace Value

/-- The value counts as given: it is neither absent, nor false, nor empty. -/
def isTruthy : Value → Bool
  | null => false
  | bool b => b
  | str s => s != ""
  | list items => !items.isEmpty

/-- The truth value, if the value is one. -/
def bool? : Value → Option Bool
  | bool b => some b
  | _ => none

/-- The text, if the value is one text. -/
def str? : Value → Option String
  | str s => some s
  | _ => none

/-- The texts, if the value is a list. -/
def list? : Value → Option (List String)
  | list items => some items
  | _ => none

/-- The value is a list, empty or not. -/
def isList : Value → Bool
  | list _ => true
  | _ => false

theorem isList_iff (v : Value) : v.isList = true ↔ ∃ items, v = list items := by
  cases v <;> simp [isList]

/-- The value as shown to a reader: texts are quoted, the items of a list stand in brackets. -/
def display : Value → String
  | null => "null"
  | bool b => if b then "true" else "false"
  | str s => Quoted.quote s
  | list items => "[" ++ String.intercalate ", " (items.map Quoted.quote) ++ "]"

/-- The value in compact JSON. -/
def json : Value → String
  | null => "null"
  | bool b => if b then "true" else "false"
  | str s => Json.string s
  | list items => Json.array (items.map Json.string)

/-- The bare text of a value: a text is itself, any other value is displayed. -/
def text : Value → String
  | str s => s
  | v => v.display

end Value

end Synopsis
