import Synopsis.Failure
import Synopsis.Text.Blank

/-!
# Tokens of a usage pattern

A pattern is cut into tokens at blanks. The brackets, the bar and three dots in a row are tokens of
their own wherever they stand; of a longer run of dots the leftmost three count first. The words of
an invocation are tokens as they are. A `Cursor` walks over tokens from the left.
Main statement: no token is empty (`ne_nil_of_mem_split`).
-/

namespace Synopsis.Token

open Text

/-- The characters that are tokens by themselves. -/
def isDelimiter (c : Char) : Bool :=
  c == '(' || c == ')' || c == '[' || c == ']' || c == '|'

/-- The token that repeats what stands before it. -/
def ellipsis : List Char := ['.', '.', '.']

/-- The tokens of a text, with `pending` read so far of the first. -/
def splitFrom (pending : List Char) : List Char → List (List Char)
  | [] => keep pending []
  | '.' :: '.' :: '.' :: cs => keep pending (ellipsis :: splitFrom [] cs)
  | c :: cs =>
    if isBlank c then keep pending (splitFrom [] cs)
    else if isDelimiter c then keep pending ([c] :: splitFrom [] cs)
    else splitFrom (pending ++ [c]) cs

/-- The tokens of a text, in order. -/
def split (cs : List Char) : List (List Char) := splitFrom [] cs

theorem ne_nil_of_mem_splitFrom {pending cs t : List Char} (h : t ∈ splitFrom pending cs) :
    t ≠ [] := by
  fun_induction splitFrom pending cs with
  | case1 pending =>
    rcases mem_keep.mp h with ⟨rfl, hne⟩ | hmem
    · exact hne
    · simp at hmem
  | case2 pending cs ih =>
    rcases mem_keep.mp h with ⟨rfl, hne⟩ | hmem
    · exact hne
    · rcases List.mem_cons.mp hmem with rfl | hmem
      · simp [ellipsis]
      · exact ih hmem
  | case3 pending c cs _ _ ih =>
    rcases mem_keep.mp h with ⟨rfl, hne⟩ | hmem
    · exact hne
    · exact ih hmem
  | case4 pending c cs _ _ _ ih =>
    rcases mem_keep.mp h with ⟨rfl, hne⟩ | hmem
    · exact hne
    · rcases List.mem_cons.mp hmem with rfl | hmem
      · simp
      · exact ih hmem
  | case5 pending c cs _ _ _ ih => exact ih h

/-- No token is empty. -/
theorem ne_nil_of_mem_split {cs t : List Char} (h : t ∈ split cs) : t ≠ [] :=
  ne_nil_of_mem_splitFrom h

end Synopsis.Token

namespace Synopsis

/-- The tokens of a usage pattern. -/
def tokenize (pattern : String) : List String :=
  (Token.split pattern.toList).map String.ofList

/-- Tokens that are still to be read, and the mode of reading. -/
structure Cursor where
  /-- What is still to be read. -/
  tokens : List String
  /-- How it is read. -/
  mode : Mode
  deriving Repr

namespace Cursor

/-- A cursor at the start of a usage pattern. -/
def ofPattern (pattern : String) : Cursor := ⟨tokenize pattern, .grammar⟩

/-- A cursor at the start of an invocation. -/
def ofWords (words : List String) (mode : Mode) : Cursor := ⟨words, mode⟩

/-- The token under the cursor. -/
def current? (c : Cursor) : Option String := c.tokens.head?

/-- The given token is under the cursor. -/
def isAt (c : Cursor) (token : String) : Bool := c.current? == some token

/-- Nothing is left to read. -/
def isAtEnd (c : Cursor) : Bool := c.tokens.isEmpty

/-- The cursor after the token under it. -/
def advance (c : Cursor) : Cursor := { c with tokens := c.tokens.drop 1 }

/-- The cursor at the end. -/
def drained (c : Cursor) : Cursor := { c with tokens := [] }

/-- The failure that a fault amounts to here. -/
def failure (c : Cursor) (text : String) : Failure := c.mode.failure text

end Cursor

end Synopsis
