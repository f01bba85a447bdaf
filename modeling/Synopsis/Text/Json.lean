/-!
# Strings and collections in compact JSON

The written form without any optional blank: a string between double quotes with the quote, the
backslash and the controls escaped, an array or object with its members separated by one comma.
Characters from the space on, ASCII or not, stand for themselves.
-/

namespace Synopsis.Text.Json

/-- The two lower-case hexadecimal digits of a number below 256. -/
def hexByte (n : Nat) : List Char := [Nat.digitChar (n / 16), Nat.digitChar (n % 16)]

/-- One character as it stands in a JSON string. -/
def escape (c : Char) : List Char :=
  match c with
  | '"' => ['\\', '"']
  | '\\' => ['\\', '\\']
  | '\x08' => ['\\', 'b']
  | '\x0c' => ['\\', 'f']
  | '\n' => ['\\', 'n']
  | '\r' => ['\\', 'r']
  | '\t' => ['\\', 't']
  | c => if c.toNat < 0x20 then "\\u00".toList ++ hexByte c.toNat else [c]

/-- A JSON string. -/
def string (s : String) : String :=
  String.ofList ('"' :: s.toList.flatMap escape ++ ['"'])

/-- A JSON array of members that are already written. -/
def array (members : List String) : String :=
  "[" ++ String.intercalate "," members ++ "]"

/-- A JSON object of named members that are already written, in the given order. -/
def object (members : List (String × String)) : String :=
  "\x7b" ++ String.intercalate "," (members.map fun m => string m.1 ++ ":" ++ m.2) ++ "\x7d"

end Synopsis.Text.Json
