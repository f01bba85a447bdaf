import Synopsis.Text.DefaultIgnorable
import Synopsis.Text.GraphemeExtend
import Synopsis.Text.Unprintable

/-!
# Quoted text

Strings inside a displayed value stand between double quotes. Whatever could not be seen, or could
not be told apart from its neighbours, is written as an escape: the quote and the backslash, the
common controls by a letter, and any other character that is unprintable, may be left out by a
display, or melts into its neighbour, by its code point in braces. Every other character stands for
itself, the apostrophe included.
-/

namespace Synopsis.Text.Quoted

/-- The halfwidth voiced and semi-voiced sound marks. They count as extending the character before
them and yet stand in a cell of their own. -/
def halfwidthMarks : CharClass := [(0xFF9E, 0xFF9F)]

/-- The character melts into the one before it. -/
def isCombining (c : Char) : Bool := graphemeExtend.contains c && !halfwidthMarks.contains c

/-- The character is written by its code point. -/
def isHidden (c : Char) : Bool :=
  unprintable.contains c || defaultIgnorable.contains c || isCombining c

/-- The code point in lower-case hexadecimal, without padding. -/
def hex (c : Char) : List Char := Nat.toDigits 16 c.toNat

/-- One character as it stands between quotes. -/
def escape (c : Char) : List Char :=
  match c with
  | '"' => ['\\', '"']
  | '\\' => ['\\', '\\']
  | '\x00' => ['\\', '0']
  | '\t' => ['\\', 't']
  | '\n' => ['\\', 'n']
  | '\r' => ['\\', 'r']
  | c => if isHidden c then "\\u\x7b".toList ++ hex c ++ "\x7d".toList else [c]

/-- The text between double quotes, every character escaped where needed. -/
def quote (s : String) : String :=
  String.ofList ('"' :: s.toList.flatMap escape ++ ['"'])

end Synopsis.Text.Quoted
