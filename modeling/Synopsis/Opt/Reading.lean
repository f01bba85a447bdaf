import Synopsis.Failure

/-!
# Reading options from words

A word such as `--output=FILE` names one long option, by its full name or an unambiguous
abbreviation; a word such as `-vo FILE` is a cluster of short options of which one with a value takes
all that is left of the word, or else the next word. Names are looked up in a registry, and where
the mode allows it an unknown option is added there. A fault becomes a failure of the kind that the
mode has for it, and what was registered or consumed before it stays so.
Main statements: a reader consumes at least the word it was called on
(`length_rest_readLong`, `length_rest_readCluster`).
-/

namespace Synopsis

/-- Why an option cannot be read. -/
inductive OptionFault where
  /-- The name fits several options. -/
  | ambiguous (name : String) (count : Nat)
  /-- The name fits no option. -/
  | unrecognized (name : String)
  /-- The option takes a value and none is left. -/
  | missingArgument (name : String)
  /-- The option takes no value and one was written with it. -/
  | unexpectedArgument (name : String)
  deriving DecidableEq, Repr

/-- The words of the fault. -/
def OptionFault.message : OptionFault → String
  | ambiguous name count => name ++ " is specified ambiguously " ++ toString count ++ " times"
  | unrecognized name => name ++ " is not recognized"
  | missingArgument name => name ++ " requires argument"
  | unexpectedArgument name => name ++ " must not have an argument"

/-- What reading one word as options leads to. -/
structure Reading where
  /-- The options read, or the failure met. -/
  outcome : Except Failure (List Opt)
  /-- The options known afterwards. -/
  registry : Registry
  /-- The words that were not consumed. -/
  rest : List String

namespace Reading

/-- A successful reading. -/
def ok (found : List Opt) (registry : Registry) (rest : List String) : Reading :=
  ⟨.ok found, registry, rest⟩

/-- A reading that met a fault, which the mode blames on one party or the other. -/
def fail (mode : Mode) (fault : OptionFault) (registry : Registry) (rest : List String) : Reading :=
  ⟨.error (mode.failure fault.message), registry, rest⟩

/-- The reading with one more option in front of those it found. -/
def precededBy (o : Opt) (r : Reading) : Reading := { r with outcome := r.outcome.map (o :: ·) }

end Reading

/-! ## Long options -/

/-- The name part of a long option's word: all before the first equal sign. -/
def longName (word : String) : String := String.ofList (word.toList.takeWhile (· != '='))

/-- The value written with a long option: what follows the first equal sign, if anything. -/
def inlineValue? (word : String) : Option String :=
  match (word.toList.dropWhile (· != '=')).drop 1 with
  | [] => none
  | cs => some (String.ofList cs)

/-- Give a known long option its value: the one written with it, or the next word if it takes one;
true if it takes none. -/
def readLongValue (mode : Mode) (o : Opt) (inline : Option String) (registry : Registry)
    (rest : List String) : Reading :=
  if o.arity = 1 then
    match inline, rest with
    | some v, _ => .ok [o.given (.str v)] registry rest
    | none, v :: rest => .ok [o.given (.str v)] registry rest
    | none, [] => .fail mode (.missingArgument o.name) registry []
  else
    match inline with
    | some _ => .fail mode (.unexpectedArgument o.name) registry rest
    | none => .ok [o.given (.bool true)] registry rest

/-- Read the first word as a long option. An unknown one takes a value from now on exactly if one
was written with it. -/
def readLong (mode : Mode) (registry : Registry) : List String → Reading
  | [] => .ok [] registry []
  | word :: rest =>
    let name := longName word
    match registry.longCandidates name with
    | [] =>
      if mode.registersUnknown then
        let o := Opt.ofLong name (if (inlineValue? word).isSome then 1 else 0)
        .ok [mode.firstOccurrence o (inlineValue? word)] (registry ++ [o]) rest
      else .fail mode (.unrecognized name) registry rest
    | [o] => readLongValue mode o (inlineValue? word) registry rest
    | os => .fail mode (.ambiguous name os.length) registry rest

/-! ## Clusters of short options -/

/-- The short name with the given letter. -/
def shortName (c : Char) : String := String.ofList ['-', c]

/-- Read the letters of a cluster one by one. -/
def readLetters (mode : Mode) (registry : Registry) (rest : List String) : List Char → Reading
  | [] => .ok [] registry rest
  | c :: cs =>
    let name := shortName c
    match registry.shortCandidates name with
    | [] =>
      if mode.registersUnknown then
        let o := Opt.ofShort name
        (readLetters mode (registry ++ [o]) rest cs).precededBy (mode.firstOccurrence o none)
      else .fail mode (.unrecognized name) registry rest
    | [o] =>
      if o.arity = 0 then
        (readLetters mode registry rest cs).precededBy (o.given (.bool true))
      else
        match cs, rest with
        | _ :: _, _ => .ok [o.given (.str (String.ofList cs))] registry rest
        | [], v :: rest => .ok [o.given (.str v)] registry rest
        | [], [] => .fail mode (.missingArgument name) registry []
    | os => .fail mode (.ambiguous name os.length) registry rest

/-- Read the first word as a cluster of short options; its first character is the dash. -/
def readCluster (mode : Mode) (registry : Registry) : List String → Reading
  | [] => .ok [] registry []
  | word :: rest => readLetters mode registry rest (word.toList.drop 1)

/-! ## Readers consume -/

theorem length_rest_readLongValue (mode : Mode) (o : Opt) (inline : Option String)
    (registry : Registry) (rest : List String) :
    (readLongValue mode o inline registry rest).rest.length ≤ rest.length := by
  unfold readLongValue
  split
  · split <;> simp [Reading.ok, Reading.fail]
  · split <;> simp [Reading.ok, Reading.fail]

theorem length_rest_readLong (mode : Mode) (registry : Registry) (word : String)
    (rest : List String) :
    (readLong mode registry (word :: rest)).rest.length < (word :: rest).length := by
  simp only [readLong, List.length_cons, Nat.lt_succ_iff]
  split
  · split <;> simp [Reading.ok, Reading.fail]
  · exact length_rest_readLongValue ..
  · simp [Reading.fail]

theorem length_rest_readLetters (mode : Mode) (registry : Registry) (rest : List String)
    (cs : List Char) :
    (readLetters mode registry rest cs).rest.length ≤ rest.length := by
  fun_induction readLetters mode registry rest cs <;>
    simp_all [Reading.ok, Reading.fail, Reading.precededBy]

theorem length_rest_readCluster (mode : Mode) (registry : Registry) (word : String)
    (rest : List String) :
    (readCluster mode registry (word :: rest)).rest.length < (word :: rest).length := by
  simpa [readCluster, Nat.lt_succ_iff] using length_rest_readLetters mode registry rest _

end Synopsis
