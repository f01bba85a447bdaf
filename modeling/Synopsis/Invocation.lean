import Synopsis.Leaf
import Synopsis.Opt.Reading

/-!
# Reading an invocation

The words given to a program are read from left to right into leaves: occurrences of options, and
positional words. A lone dash is positional. Two dashes alone, and all words after them, are
positional too. The reading ends because each step consumes a word.
-/

namespace Synopsis

/-! ## Kinds of words -/

/-- What a word is by its dashes. -/
inductive WordKind where
  /-- Two dashes and nothing else. -/
  | separator
  /-- A long option. -/
  | long
  /-- A cluster of short options. -/
  | cluster
  /-- Anything else, the lone dash included. -/
  | plain
  deriving DecidableEq, Repr

/-- The kind of a word by its characters. -/
def WordKind.ofChars : List Char → WordKind
  | ['-'] => plain
  | ['-', '-'] => separator
  | '-' :: '-' :: _ => long
  | '-' :: _ => cluster
  | _ => plain

/-- The kind of a word. -/
def WordKind.of (word : String) : WordKind := ofChars word.toList

/-! ## Words into leaves -/

/-- What reading an invocation leads to. -/
structure Invocation where
  /-- The leaves read, or the failure met. -/
  outcome : Except Failure (List Leaf)
  /-- The options known afterwards. -/
  registry : Registry

/-- The invocation with more leaves in front. -/
def Invocation.precededBy (leaves : List Leaf) (i : Invocation) : Invocation :=
  { i with outcome := i.outcome.map (leaves ++ ·) }

/-- Read the words of an invocation. -/
def readInvocation (mode : Mode) (registry : Registry) : List String → Invocation
  | [] => ⟨.ok [], registry⟩
  | word :: rest =>
    match WordKind.of word with
    | .separator => ⟨.ok ((word :: rest).map Leaf.positional), registry⟩
    | .long =>
      let reading := readLong mode registry (word :: rest)
      match reading.outcome with
      | .ok os =>
        (readInvocation mode reading.registry reading.rest).precededBy (os.map Leaf.option)
      | .error failure => ⟨.error failure, reading.registry⟩
    | .cluster =>
      let reading := readCluster mode registry (word :: rest)
      match reading.outcome with
      | .ok os =>
        (readInvocation mode reading.registry reading.rest).precededBy (os.map Leaf.option)
      | .error failure => ⟨.error failure, reading.registry⟩
    | .plain => (readInvocation mode registry rest).precededBy [Leaf.positional word]
termination_by words => words.length
decreasing_by
  · exact length_rest_readLong ..
  · exact length_rest_readCluster ..
  · simp

end Synopsis
