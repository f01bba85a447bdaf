import Synopsis.Invocation
import Synopsis.Token
import Synopsis.Tree.Basic

/-!
# The grammar of usage patterns

    expression ::= sequence ( "|" sequence )*
    sequence   ::= ( atom [ "..." ] )*
    atom       ::= "(" expression ")" | "[" expression "]" | "[" "options" "]"
                 | "--" | LONG | CLUSTER | ARGUMENT | COMMAND

A pattern is read in one pass over its tokens. What has been read of the innermost open bracket is a
`Level`; the levels around it wait on a stack, each with the bracket that opened the next. Closing a
bracket turns its level into one atom of the level around it. Options are read as in an invocation,
and one that is not in the registry yet is added to it. A fault becomes a failure of the kind that the
mode has for it.
The pass ends because each step consumes a token.
-/

namespace Synopsis

/-! ## Brackets, tokens and faults -/

/-- The two kinds of brackets. -/
inductive Bracket where
  /-- Parentheses: what they hold is required. -/
  | round
  /-- Square brackets: what they hold is optional. -/
  | square
  deriving DecidableEq, Repr

/-- The opening bracket. -/
def Bracket.opening : Bracket → String
  | round => "("
  | square => "["

/-- The closing bracket. -/
def Bracket.closing : Bracket → String
  | round => ")"
  | square => "]"

/-- The group that a pair of brackets makes of what it holds. -/
def Bracket.group : Bracket → List (Pattern Nat) → Pattern Nat
  | round, ps => .required ps
  | square, ps => .optional ps

/-- Why the brackets of a usage pattern cannot be read. -/
inductive GrammarFault where
  /-- A bracket is not closed by its like. -/
  | unmatched (b : Bracket)
  /-- A closing bracket was never opened; the tokens from it on. -/
  | trailing (tokens : List String)
  deriving DecidableEq, Repr

/-- The words of the fault. -/
def GrammarFault.message : GrammarFault → String
  | unmatched b => "Unmatched '" ++ b.opening ++ "'"
  | trailing tokens => "unexpected ending: " ++ String.intercalate " " tokens

/-- What a token means where an atom may start. -/
inductive TokenKind where
  /-- An opening bracket. -/
  | opening (b : Bracket)
  /-- A closing bracket. -/
  | closing (b : Bracket)
  /-- The bar between alternatives. -/
  | bar
  /-- A long option. -/
  | long
  /-- A cluster of short options. -/
  | cluster
  /-- The place holder of an argument. -/
  | argument
  /-- Any other word, to be given as it stands. -/
  | command
  deriving DecidableEq, Repr

/-- The token is written as the place holder of an argument: in angle brackets, or with an
upper-case ASCII letter and no lower-case one. -/
def isArgumentName (cs : List Char) : Bool :=
  (cs.head? == some '<' && cs.getLast? == some '>') ||
    (cs.any Char.isUpper && !cs.any Char.isLower)

/-- The meaning of a token. -/
def TokenKind.of (token : String) : TokenKind :=
  if token = "(" then opening .round
  else if token = "[" then opening .square
  else if token = ")" then closing .round
  else if token = "]" then closing .square
  else if token = "|" then bar
  else
    match WordKind.of token with
    | .separator => command
    | .long => long
    | .cluster => cluster
    | .plain => if isArgumentName token.toList then argument else command

/-! ## Levels -/

/-- What has been read of one expression. -/
structure Level where
  /-- The alternatives that a bar has ended. -/
  finished : List (List (Pattern Nat))
  /-- The alternative under way. -/
  current : List (Pattern Nat)

namespace Level

/-- Nothing has been read yet. -/
def empty : Level := ⟨[], []⟩

/-- The level with more atoms in the alternative under way. -/
def add (l : Level) (atoms : List (Pattern Nat)) : Level := { l with current := l.current ++ atoms }

/-- A bar ends the alternative under way. -/
def startAlternative (l : Level) : Level := ⟨l.finished ++ [l.current], []⟩

/-- One alternative as a single pattern, if it is not empty. -/
def asAlternative : List (Pattern Nat) → List (Pattern Nat)
  | p :: q :: ps => [.required (p :: q :: ps)]
  | ps => ps

/-- The patterns that an expression amounts to. Without a bar they are those of its only sequence.
With bars, empty alternatives are dropped, and a choice is made if more than one is left. -/
def close (l : Level) : List (Pattern Nat) :=
  match l.finished with
  | [] => l.current
  | _ :: _ =>
    match (l.finished ++ [l.current]).flatMap asAlternative with
    | p :: q :: ps => [.either (p :: q :: ps)]
    | ps => ps

end Level

/-! ## Reading the tokens -/

/-- What has been read of a usage pattern. -/
structure Draft where
  /-- How the tokens are read. -/
  mode : Mode
  /-- The leaves met so far, a slot for each. -/
  slots : List Leaf
  /-- The options known so far. -/
  registry : Registry
  /-- The brackets still open, the innermost first, each with the level around it. -/
  outer : List (Bracket × Level)
  /-- The innermost level. -/
  level : Level

/-- What reading a usage pattern leads to. -/
structure Parsed where
  /-- The tree read, or the failure met. -/
  outcome : Except Failure Tree
  /-- The options known afterwards. -/
  registry : Registry

/-- Several atoms that an ellipsis repeats as one. -/
def asRepeated : List (Pattern Nat) → Pattern Nat
  | [p] => p
  | ps => .required ps

/-- The atoms, repeated if an ellipsis follows, and the tokens after it. -/
def withEllipsis (atoms : List (Pattern Nat)) :
    List String → List (Pattern Nat) × List String
  | [] => (atoms, [])
  | token :: rest =>
    if token = "..." then ([.oneOrMore (asRepeated atoms)], rest) else (atoms, token :: rest)

theorem length_withEllipsis (atoms : List (Pattern Nat)) (tokens : List String) :
    (withEllipsis atoms tokens).2.length ≤ tokens.length := by
  unfold withEllipsis
  split
  · simp
  · split <;> simp

namespace Draft

/-- Nothing has been read yet. -/
def start (mode : Mode) (registry : Registry) : Draft := ⟨mode, [], registry, [], .empty⟩

/-- The failure that a fault of the brackets amounts to here. -/
def failure (d : Draft) (fault : GrammarFault) : Failure := d.mode.failure fault.message

/-- The draft with atoms at the end of the innermost level. -/
def add (d : Draft) (atoms : List (Pattern Nat)) : Draft := { d with level := d.level.add atoms }

/-- The places of new leaves, each in a slot of its own behind those there are. -/
def placesFor (d : Draft) (leaves : List Leaf) : List (Pattern Nat) :=
  (List.range' d.slots.length leaves.length).map Pattern.leaf

/-- The draft with new leaves in slots of their own; they are in no place yet. -/
def withSlots (d : Draft) (leaves : List Leaf) : Draft := { d with slots := d.slots ++ leaves }

/-- The draft after an opening bracket. -/
def push (d : Draft) (b : Bracket) : Draft :=
  { d with outer := (b, d.level) :: d.outer, level := .empty }

/-- What a draft amounts to at the end of the tokens. -/
def finish (d : Draft) : Parsed :=
  match d.outer with
  | [] => ⟨.ok ⟨d.slots, .required d.level.close⟩, d.registry⟩
  | (b, _) :: _ => ⟨.error (d.failure (.unmatched b)), d.registry⟩

end Draft

/-- What one step leads to. -/
inductive Progress where
  /-- Reading goes on. -/
  | more (d : Draft) (rest : List String)
  /-- A failure ends it. -/
  | stop (failure : Failure) (registry : Registry)

/-- Reading goes on with at most the given number of tokens, or has stopped. -/
def Progress.Within (n : Nat) : Progress → Prop
  | more _ rest => rest.length ≤ n
  | stop _ _ => True

namespace Draft

/-- Take up atoms, repeated if an ellipsis follows. -/
def takeAtoms (d : Draft) (atoms : List (Pattern Nat)) (rest : List String) : Progress :=
  .more (d.add (withEllipsis atoms rest).1) (withEllipsis atoms rest).2

/-- Take up leaves, each in a slot and a place of its own. -/
def takeLeaves (d : Draft) (leaves : List Leaf) (rest : List String) : Progress :=
  (d.withSlots leaves).takeAtoms (d.placesFor leaves) rest

/-- Take up options as they were read. -/
def takeOptions (d : Draft) (reading : Reading) : Progress :=
  match reading.outcome with
  | .ok os => { d with registry := reading.registry }.takeLeaves (os.map Leaf.option) reading.rest
  | .error failure => .stop failure reading.registry

/-- Take up the shorthand for options, of which the closing bracket is still to come. -/
def takeAnyOptions (d : Draft) (rest : List String) : Progress :=
  match rest with
  | "]" :: rest =>
    (d.withSlots [.anyOptions]).takeAtoms [.optional (d.placesFor [.anyOptions])] rest
  | _ => .stop (d.failure (.unmatched .square)) d.registry

/-- An opening bracket starts a level, unless it starts the shorthand for options. -/
def openBracket (d : Draft) (b : Bracket) (rest : List String) : Progress :=
  match b, rest with
  | .square, "options" :: rest => d.takeAnyOptions rest
  | b, rest => .more (d.push b) rest

/-- A closing bracket has to be the like of the innermost open one; the level between them becomes
an atom. -/
def closeBracket (d : Draft) (b : Bracket) (token : String) (rest : List String) : Progress :=
  match d.outer with
  | [] => .stop (d.failure (.trailing (token :: rest))) d.registry
  | (opened, level) :: outer =>
    if opened = b then
      { d with outer := outer, level := level }.takeAtoms [b.group d.level.close] rest
    else .stop (d.failure (.unmatched opened)) d.registry

/-- Read one token, and what belongs to it. -/
def advance (d : Draft) (token : String) (rest : List String) : Progress :=
  match TokenKind.of token with
  | .opening b => d.openBracket b rest
  | .closing b => d.closeBracket b token rest
  | .bar => .more { d with level := d.level.startAlternative } rest
  | .long => d.takeOptions (readLong d.mode d.registry (token :: rest))
  | .cluster => d.takeOptions (readCluster d.mode d.registry (token :: rest))
  | .argument => d.takeLeaves [.placeholder token] rest
  | .command => d.takeLeaves [.keyword token] rest

/-! ### Each step consumes a token -/

theorem takeAtoms_within (d : Draft) (atoms : List (Pattern Nat)) {n : Nat} {rest : List String}
    (h : rest.length ≤ n) : (d.takeAtoms atoms rest).Within n :=
  Nat.le_trans (length_withEllipsis atoms rest) h

theorem takeOptions_within (d : Draft) {n : Nat} {reading : Reading}
    (h : reading.rest.length ≤ n) : (d.takeOptions reading).Within n := by
  unfold takeOptions
  split
  · exact takeAtoms_within _ _ h
  · trivial

theorem openBracket_within (d : Draft) (b : Bracket) (rest : List String) :
    (d.openBracket b rest).Within rest.length := by
  unfold openBracket
  split
  · unfold takeAnyOptions
    split
    · exact takeAtoms_within _ _ (by simp only [List.length_cons]; omega)
    · trivial
  · exact Nat.le_refl _

theorem closeBracket_within (d : Draft) (b : Bracket) (token : String) (rest : List String) :
    (d.closeBracket b token rest).Within rest.length := by
  unfold closeBracket
  split
  · trivial
  · split
    · exact takeAtoms_within _ _ (Nat.le_refl _)
    · trivial

theorem advance_within (d : Draft) (token : String) (rest : List String) :
    (d.advance token rest).Within rest.length := by
  unfold advance
  split
  · exact openBracket_within ..
  · exact closeBracket_within ..
  · exact Nat.le_refl _
  · exact takeOptions_within _ (Nat.le_of_lt_succ (length_rest_readLong ..))
  · exact takeOptions_within _ (Nat.le_of_lt_succ (length_rest_readCluster ..))
  · exact takeAtoms_within _ _ (Nat.le_refl _)
  · exact takeAtoms_within _ _ (Nat.le_refl _)

theorem length_of_advance {d d' : Draft} {token : String} {rest rest' : List String}
    (h : d.advance token rest = .more d' rest') : rest'.length < (token :: rest).length := by
  have hw := advance_within d token rest
  rw [h] at hw
  exact Nat.lt_succ_of_le hw

/-- Read all tokens. -/
def run (d : Draft) : List String → Parsed
  | [] => d.finish
  | token :: rest =>
    match _h : d.advance token rest with
    | .more d' rest' => d'.run rest'
    | .stop failure registry => ⟨.error failure, registry⟩
termination_by tokens => tokens.length
decreasing_by exact length_of_advance _h

end Draft

/-- Read a usage pattern, given the options known before it. -/
def parsePattern (registry : Registry) (source : String) : Parsed :=
  let c := Cursor.ofPattern source
  (Draft.start c.mode registry).run c.tokens

theorem parsePattern_eq_run (registry : Registry) (source : String) :
    parsePattern registry source = (Draft.start .grammar registry).run (tokenize source) := rfl

end Synopsis
