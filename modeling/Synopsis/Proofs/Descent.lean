import Synopsis.Proofs.Composition
import Synopsis.Proofs.Leniency

/-!
# Reading with a cursor

A cursor walks over the tokens, and every failure is made by the cursor at which it is met. An invocation
is read by a loop that gathers leaves until nothing is left (`Scans`, `Scans.isAtEnd`). A usage pattern is
read by descent: an expression calls for sequences, a sequence for atoms, and a bracket among the atoms for
an expression again (`PatternReader.Reads`, one rule for each way through a phrase). Nothing in such rules
says that there is a way at all, or only one.

The readers of this library work otherwise. `readInvocation` puts what it finds in front of what the rest
gives, and `Draft.run` has a stack in place of the descent: what a phrase would return to, the stack holds
as the brackets open around it. The results are the same. A loop that has gathered leaves ends with those
and what `readInvocation` finds (`scans_iff`). Where the descent reads a phrase, the stack machine goes on
from the same tokens with the level that the phrase amounts to, whatever brackets are open
(`PatternReader.Reads.agrees`, by induction on the rules), and as there is a way through each phrase
(`PatternReader.exists_expression`, by induction on the tokens left), reading by descent and
`parsePattern` are one (`parsePattern_eq_iff_descends`).
-/

namespace Synopsis

/-! ## The cursor -/

namespace Cursor

variable {c : Cursor} {token : String}

theorem isAt_iff : c.isAt token = true ↔ c.current? = some token := beq_iff_eq

theorem not_isAt_iff : c.isAt token = false ↔ c.current? ≠ some token := beq_eq_false_iff_ne

theorem tokens_eq_cons (h : c.current? = some token) : c.tokens = token :: c.advance.tokens := by
  obtain ⟨rest, hrest⟩ := List.head?_eq_some_iff.mp h
  rw [advance, hrest]
  rfl

/-- The options under the cursor as they are read there, if the token calls for that. -/
def options? (c : Cursor) (r : Registry) : Option Reading :=
  match c.current?.map WordKind.of with
  | some .long => some (readLong c.mode r c.tokens)
  | some .cluster => some (readCluster c.mode r c.tokens)
  | _ => none

/-- The cursor behind options that were read. -/
def behind (c : Cursor) (reading : Reading) : Cursor := { c with tokens := reading.rest }

/-- Options are read by the reader that the dashes of the token call for. -/
theorem exists_token_of_options? {r : Registry} {reading : Reading}
    (h : c.options? r = some reading) :
    ∃ token, c.current? = some token ∧
      ((WordKind.of token = .long ∧ readLong c.mode r c.tokens = reading) ∨
        (WordKind.of token = .cluster ∧ readCluster c.mode r c.tokens = reading)) := by
  unfold options? at h
  split at h
  · next hkind =>
    obtain ⟨token, htoken, hkind⟩ := Option.map_eq_some_iff.mp hkind
    exact ⟨token, htoken, Or.inl ⟨hkind, Option.some.inj h⟩⟩
  · next hkind =>
    obtain ⟨token, htoken, hkind⟩ := Option.map_eq_some_iff.mp hkind
    exact ⟨token, htoken, Or.inr ⟨hkind, Option.some.inj h⟩⟩
  · cases h

theorem wordKind_of_options?_eq_none {r : Registry} (htoken : c.current? = some token)
    (h : c.options? r = none) : WordKind.of token = .separator ∨ WordKind.of token = .plain := by
  rw [options?, htoken, Option.map_some] at h
  cases hkind : WordKind.of token with
  | separator => exact Or.inl rfl
  | plain => exact Or.inr rfl
  | long | cluster =>
    rw [hkind] at h
    cases h

/-- Options that are read take at least the token under the cursor. -/
theorem length_behind {r : Registry} {reading : Reading} (h : c.options? r = some reading) :
    (c.behind reading).tokens.length < c.tokens.length := by
  obtain ⟨token, htoken, ⟨-, rfl⟩ | ⟨-, rfl⟩⟩ := exists_token_of_options? h
  · rw [tokens_eq_cons htoken]
    exact length_rest_readLong ..
  · rw [tokens_eq_cons htoken]
    exact length_rest_readCluster ..

theorem length_advance (h : c.current? = some token) :
    c.advance.tokens.length < c.tokens.length := by
  rw [tokens_eq_cons h]
  exact Nat.lt_succ_self _

end Cursor

/-! ## Reading an invocation -/

/-- **`Scans c r leaves i c'`**: a loop that stands at `c`, knows the options of `r` and has gathered
`leaves` ends with `i` at `c'`. -/
inductive Scans : Cursor → Registry → List Leaf → Invocation → Cursor → Prop
  | finished {c : Cursor} {r : Registry} {leaves : List Leaf} (h : c.isAtEnd = true) :
      Scans c r leaves ⟨.ok leaves, r⟩ c
  /-- All tokens from the two dashes on are positional. -/
  | separator {c : Cursor} {r : Registry} {leaves : List Leaf} (h : c.isAt "--" = true) :
      Scans c r leaves ⟨.ok (leaves ++ c.tokens.map Leaf.positional), r⟩ c.drained
  | options {c c' : Cursor} {r : Registry} {leaves : List Leaf} {reading : Reading} {os : List Opt}
      {i : Invocation} (h : c.options? r = some reading) (hos : reading.outcome = .ok os)
      (hrest : Scans (c.behind reading) reading.registry (leaves ++ os.map Leaf.option) i c') :
      Scans c r leaves i c'
  | failure {c : Cursor} {r : Registry} {leaves : List Leaf} {reading : Reading} {failure : Failure}
      (h : c.options? r = some reading) (hfailure : reading.outcome = .error failure) :
      Scans c r leaves ⟨.error failure, reading.registry⟩ (c.behind reading)
  | positional {c c' : Cursor} {r : Registry} {leaves : List Leaf} {token : String} {i : Invocation}
      (h : c.current? = some token) (hkind : WordKind.of token = .plain)
      (hrest : Scans c.advance r (leaves ++ [Leaf.positional token]) i c') : Scans c r leaves i c'

theorem Invocation.precededBy_nil (i : Invocation) : i.precededBy [] = i := by
  obtain ⟨outcome, registry⟩ := i
  cases outcome <;> rfl

theorem Invocation.precededBy_append (front leaves : List Leaf) (i : Invocation) :
    i.precededBy (front ++ leaves) = (i.precededBy leaves).precededBy front := by
  obtain ⟨outcome, registry⟩ := i
  cases outcome with
  | error failure => rfl
  | ok rest => simp only [precededBy, Except.map, List.append_assoc]

theorem readInvocation_plain {mode : Mode} {r : Registry} {word : String} {rest : List String}
    (h : WordKind.of word = .plain) :
    readInvocation mode r (word :: rest) =
      (readInvocation mode r rest).precededBy [Leaf.positional word] := by
  rw [readInvocation]
  simp only [h]

/-- Options under the cursor are what the reader of an invocation goes on from. -/
theorem readInvocation_of_options? {c : Cursor} {r : Registry} {reading : Reading}
    (h : c.options? r = some reading) :
    readInvocation c.mode r c.tokens = reading.resume c.mode := by
  obtain ⟨token, htoken, ⟨hkind, rfl⟩ | ⟨hkind, rfl⟩⟩ := Cursor.exists_token_of_options? h
  · rw [Cursor.tokens_eq_cons htoken]
    exact readInvocation_long hkind
  · rw [Cursor.tokens_eq_cons htoken]
    exact readInvocation_cluster hkind

/-- The loop ends with what it had gathered and what is left to be found. -/
theorem Scans.eq_precededBy {c c' : Cursor} {r : Registry} {leaves : List Leaf} {i : Invocation}
    (h : Scans c r leaves i c') : i = (readInvocation c.mode r c.tokens).precededBy leaves := by
  induction h with
  | @finished c r leaves h =>
    rw [List.isEmpty_iff.mp h, readInvocation]
    simp [Invocation.precededBy, Except.map]
  | @separator c r leaves h =>
    rw [Cursor.tokens_eq_cons (Cursor.isAt_iff.mp h), readInvocation]
    rfl
  | @options c c' r leaves reading os i h hos _ ih =>
    rw [ih, readInvocation_of_options? h, Reading.resume, hos]
    exact Invocation.precededBy_append ..
  | @failure c r leaves reading failure h hfailure =>
    rw [readInvocation_of_options? h, Reading.resume, hfailure]
    rfl
  | @positional c c' r leaves token i h hkind _ ih =>
    rw [ih, Cursor.tokens_eq_cons h, readInvocation_plain hkind]
    exact Invocation.precededBy_append ..

/-- No word is left behind where an invocation is read. -/
theorem Scans.isAtEnd {c c' : Cursor} {r : Registry} {leaves found : List Leaf} {i : Invocation}
    (h : Scans c r leaves i c') (hfound : i.outcome = .ok found) : c'.isAtEnd = true := by
  induction h with
  | finished hend => exact hend
  | separator _ => rfl
  | options _ _ _ ih => exact ih hfound
  | failure _ _ => cases hfound
  | positional _ _ _ ih => exact ih hfound

/-- The loop ends, for each turn takes a token off. -/
theorem exists_scans (c : Cursor) (r : Registry) (leaves : List Leaf) :
    ∃ i c', Scans c r leaves i c' := by
  induction hlength : c.tokens.length using Nat.strong_induction_on generalizing c r leaves with
  | _ n ih =>
    subst hlength
    cases htoken : c.current? with
    | none => exact ⟨_, _, .finished (List.isEmpty_iff.mpr (List.head?_eq_none_iff.mp htoken))⟩
    | some token =>
      cases hreading : c.options? r with
      | some reading =>
        cases houtcome : reading.outcome with
        | error failure => exact ⟨_, _, .failure hreading houtcome⟩
        | ok os =>
          obtain ⟨i, c', hi⟩ := ih _ (Cursor.length_behind hreading) (c.behind reading) reading.registry
            (leaves ++ os.map Leaf.option) rfl
          exact ⟨i, c', .options hreading houtcome hi⟩
      | none =>
        rcases Cursor.wordKind_of_options?_eq_none htoken hreading with hkind | hkind
        · obtain rfl : token = "--" := wordKind_eq_iff.mp hkind
          exact ⟨_, _, .separator (Cursor.isAt_iff.mpr htoken)⟩
        · obtain ⟨i, c', hi⟩ := ih _ (Cursor.length_advance htoken) c.advance r
            (leaves ++ [Leaf.positional token]) rfl
          exact ⟨i, c', .positional htoken hkind hi⟩

/-- **Reading an invocation is a loop over its words.** -/
theorem scans_iff {mode : Mode} {r : Registry} {words : List String} {i : Invocation} :
    (∃ c', Scans (.ofWords words mode) r [] i c') ↔ readInvocation mode r words = i := by
  have hresult : ∀ {j c'}, Scans (.ofWords words mode) r [] j c' →
      j = readInvocation mode r words := by
    intro j c' hj
    exact hj.eq_precededBy.trans (Invocation.precededBy_nil _)
  constructor
  · rintro ⟨c', h⟩
    exact (hresult h).symm
  · rintro rfl
    obtain ⟨j, c', hj⟩ := exists_scans (.ofWords words mode) r []
    rw [hresult hj] at hj
    exact ⟨c', hj⟩

/-! ## Reading a pattern -/

/-- The cursor is where a sequence ends: at the end, a closing bracket or a bar. -/
def Cursor.endsSequence (c : Cursor) : Bool :=
  c.isAtEnd || c.isAt "]" || c.isAt ")" || c.isAt "|"

/-- The leaf of a token that is neither a bracket nor options. -/
def wordLeaf (token : String) : Leaf :=
  if WordKind.of token = .plain ∧ isArgumentName token.toList = true then .placeholder token
  else .keyword token

/-- What is at hand in reading a pattern by descent. -/
structure PatternReader where
  /-- The tokens to come. -/
  cursor : Cursor
  /-- The options known so far. -/
  registry : Registry
  /-- The leaves met so far, a slot for each. -/
  slots : List Leaf

namespace PatternReader

/-- Nothing has been read yet. -/
def start (registry : Registry) (source : String) : PatternReader :=
  ⟨.ofPattern source, registry, []⟩

/-- The token under the cursor is taken. -/
def next (s : PatternReader) : PatternReader := { s with cursor := s.cursor.advance }

/-- Options have been read. -/
def behind (s : PatternReader) (reading : Reading) : PatternReader :=
  { s with cursor := s.cursor.behind reading, registry := reading.registry }

/-- Leaves have been met. -/
def withSlots (s : PatternReader) (leaves : List Leaf) : PatternReader :=
  { s with slots := s.slots ++ leaves }

/-- The places of new leaves, each in a slot of its own behind those there are. -/
def placesFor (s : PatternReader) (leaves : List Leaf) : List (Pattern Nat) :=
  (List.range' s.slots.length leaves.length).map Pattern.leaf

/-- What can be called for: the three phrases of the grammar, and the loops that two of them are, each
with what it has gathered. -/
inductive Phrase where
  | expression
  | alternatives (read : List (List (Pattern Nat)))
  | sequence (read : List (Pattern Nat))
  | atom

/-- **`s.Reads phrase outcome s'`**: called for at `s`, the phrase returns the patterns it amounts to, or a
failure, at `s'`. -/
inductive Reads :
    PatternReader → Phrase → Except Failure (List (Pattern Nat)) → PatternReader → Prop
  /-- An expression without a bar is its only sequence. -/
  | single {s s' : PatternReader} {ps : List (Pattern Nat)}
      (hread : Reads s (.sequence []) (.ok ps) s') (hbar : s'.cursor.isAt "|" = false) :
      Reads s .expression (.ok ps) s'
  | choice {s s' s'' : PatternReader} {ps : List (Pattern Nat)}
      {outcome : Except Failure (List (Pattern Nat))} (hread : Reads s (.sequence []) (.ok ps) s')
      (hbar : s'.cursor.isAt "|" = true) (hrest : Reads s' (.alternatives [ps]) outcome s'') :
      Reads s .expression outcome s''
  | expressionFails {s s' : PatternReader} {failure : Failure}
      (hread : Reads s (.sequence []) (.error failure) s') : Reads s .expression (.error failure) s'
  /-- A bar calls for one more alternative. -/
  | alternative {s s' s'' : PatternReader} {read : List (List (Pattern Nat))}
      {ps : List (Pattern Nat)} {outcome : Except Failure (List (Pattern Nat))}
      (hbar : s.cursor.isAt "|" = true) (hread : Reads s.next (.sequence []) (.ok ps) s')
      (hrest : Reads s' (.alternatives (read ++ [ps])) outcome s'') :
      Reads s (.alternatives read) outcome s''
  | alternativeFails {s s' : PatternReader} {read : List (List (Pattern Nat))} {failure : Failure}
      (hbar : s.cursor.isAt "|" = true) (hread : Reads s.next (.sequence []) (.error failure) s') :
      Reads s (.alternatives read) (.error failure) s'
  | lastAlternative {s : PatternReader} {read : List (List (Pattern Nat))}
      (hbar : s.cursor.isAt "|" = false) :
      Reads s (.alternatives read) (.ok (Level.chosen (read.flatMap Level.asAlternative))) s
  | sequenceEnds {s : PatternReader} {read : List (Pattern Nat)}
      (hend : s.cursor.endsSequence = true) : Reads s (.sequence read) (.ok read) s
  | one {s s' s'' : PatternReader} {read atoms : List (Pattern Nat)}
      {outcome : Except Failure (List (Pattern Nat))} (hend : s.cursor.endsSequence = false)
      (hread : Reads s .atom (.ok atoms) s') (hellipsis : s'.cursor.isAt "..." = false)
      (hrest : Reads s' (.sequence (read ++ atoms)) outcome s'') :
      Reads s (.sequence read) outcome s''
  /-- An ellipsis repeats all that the atom has given. -/
  | repeated {s s' s'' : PatternReader} {read atoms : List (Pattern Nat)}
      {outcome : Except Failure (List (Pattern Nat))} (hend : s.cursor.endsSequence = false)
      (hread : Reads s .atom (.ok atoms) s') (hellipsis : s'.cursor.isAt "..." = true)
      (hrest : Reads s'.next (.sequence (read ++ [.oneOrMore (asRepeated atoms)])) outcome s'') :
      Reads s (.sequence read) outcome s''
  | sequenceFails {s s' : PatternReader} {read : List (Pattern Nat)} {failure : Failure}
      (hend : s.cursor.endsSequence = false) (hread : Reads s .atom (.error failure) s') :
      Reads s (.sequence read) (.error failure) s'
  /-- Where nothing is left there is no atom. A sequence does not call for one there. -/
  | nothing {s : PatternReader} (hend : s.cursor.isAtEnd = true) : Reads s .atom (.ok []) s
  | group {s s' : PatternReader} {b : Bracket} {ps : List (Pattern Nat)}
      (hopening : s.cursor.isAt b.opening = true)
      (hshorthand : b = .square → s.next.cursor.isAt "options" = false)
      (hread : Reads s.next .expression (.ok ps) s') (hclosing : s'.cursor.isAt b.closing = true) :
      Reads s .atom (.ok [b.group ps]) s'.next
  | unmatched {s s' : PatternReader} {b : Bracket} {ps : List (Pattern Nat)}
      (hopening : s.cursor.isAt b.opening = true)
      (hshorthand : b = .square → s.next.cursor.isAt "options" = false)
      (hread : Reads s.next .expression (.ok ps) s') (hclosing : s'.cursor.isAt b.closing = false) :
      Reads s .atom (.error (s'.next.cursor.failure (GrammarFault.unmatched b).message)) s'.next
  | groupFails {s s' : PatternReader} {b : Bracket} {failure : Failure}
      (hopening : s.cursor.isAt b.opening = true)
      (hshorthand : b = .square → s.next.cursor.isAt "options" = false)
      (hread : Reads s.next .expression (.error failure) s') : Reads s .atom (.error failure) s'
  | shorthand {s : PatternReader} (hopening : s.cursor.isAt "[" = true)
      (hshorthand : s.next.cursor.isAt "options" = true)
      (hclosing : s.next.next.cursor.isAt "]" = true) :
      Reads s .atom (.ok [.optional (s.placesFor [.anyOptions])])
        (s.next.next.withSlots [.anyOptions]).next
  | openShorthand {s : PatternReader} (hopening : s.cursor.isAt "[" = true)
      (hshorthand : s.next.cursor.isAt "options" = true)
      (hclosing : s.next.next.cursor.isAt "]" = false) :
      Reads s .atom
        (.error (s.next.next.next.cursor.failure (GrammarFault.unmatched .square).message))
        (s.next.next.withSlots [.anyOptions]).next
  | options {s : PatternReader} {reading : Reading} {os : List Opt}
      (hreading : s.cursor.options? s.registry = some reading) (hos : reading.outcome = .ok os) :
      Reads s .atom (.ok (s.placesFor (os.map Leaf.option)))
        ((s.behind reading).withSlots (os.map Leaf.option))
  | optionsFail {s : PatternReader} {reading : Reading} {failure : Failure}
      (hreading : s.cursor.options? s.registry = some reading)
      (hfailure : reading.outcome = .error failure) :
      Reads s .atom (.error failure) (s.behind reading)
  | word {s : PatternReader} {token : String} (htoken : s.cursor.current? = some token)
      (hbracket : ∀ b : Bracket, token ≠ b.opening)
      (hreading : s.cursor.options? s.registry = none) :
      Reads s .atom (.ok (s.placesFor [wordLeaf token])) (s.next.withSlots [wordLeaf token])

/-- **`Descends registry source parsed`**: a pattern is read by descent as an expression, behind which
nothing may be left. -/
inductive Descends (registry : Registry) (source : String) : Parsed → Prop
  | whole {s : PatternReader} {ps : List (Pattern Nat)}
      (hread : (start registry source).Reads .expression (.ok ps) s)
      (hend : s.cursor.isAtEnd = true) :
      Descends registry source ⟨.ok ⟨s.slots, .required ps⟩, s.registry⟩
  | trailing {s : PatternReader} {ps : List (Pattern Nat)}
      (hread : (start registry source).Reads .expression (.ok ps) s)
      (hend : s.cursor.isAtEnd = false) :
      Descends registry source
        ⟨.error (s.cursor.drained.failure (GrammarFault.trailing s.cursor.tokens).message),
          s.registry⟩
  | fails {s : PatternReader} {failure : Failure}
      (hread : (start registry source).Reads .expression (.error failure) s) :
      Descends registry source ⟨.error failure, s.registry⟩

/-! ### The descent and the stack -/

variable {s s' : PatternReader} {outer : List (Bracket × Level)} {level : Level}

/-- The stack machine where the descent is, with some brackets open and some of the innermost level
read. -/
def draft (s : PatternReader) (outer : List (Bracket × Level)) (level : Level) : Draft :=
  ⟨s.cursor.mode, s.slots, s.registry, outer, level⟩

/-- What the stack machine makes of the tokens to come. -/
def resume (s : PatternReader) (outer : List (Bracket × Level)) (level : Level) : Parsed :=
  (s.draft outer level).run s.cursor.tokens

/-- The cursor is where an expression ends: at the end or at a closing bracket. -/
def EndsExpression (s : PatternReader) : Prop :=
  s.cursor.endsSequence = true ∧ s.cursor.isAt "|" = false

/-- The innermost level has on it what the phrase starts from. -/
def StartsFrom (s : PatternReader) (level : Level) : Phrase → Prop
  | .expression => level = .empty
  | .alternatives read =>
    level.finished ++ [level.current] = read ∧ s.cursor.endsSequence = true ∧
      (level.finished = [] → s.cursor.isAt "|" = true)
  | .sequence read => level.current = read
  | .atom => s.cursor.endsSequence = false

/-- What the stack machine ends with is what comes of going on at `s'` with the patterns of the phrase in
their place: a level that closes as an expression, the alternative under way, or the atoms next to be
taken up. -/
def GoesOn (s' : PatternReader) (outer : List (Bracket × Level)) (level : Level)
    (ps : List (Pattern Nat)) (parsed : Parsed) : Phrase → Prop
  | .expression | .alternatives _ =>
    ∃ l : Level, l.close = ps ∧ s'.EndsExpression ∧ parsed = s'.resume outer l
  | .sequence _ => s'.cursor.endsSequence = true ∧ parsed = s'.resume outer ⟨level.finished, ps⟩
  | .atom => parsed = ((s'.draft outer level).takeAtoms ps s'.cursor.tokens).conclude

/-- The stack machine goes on after the phrase, or has ended with its failure. -/
def Follows (s' : PatternReader) (outer : List (Bracket × Level)) (level : Level) (phrase : Phrase)
    (outcome : Except Failure (List (Pattern Nat))) (parsed : Parsed) : Prop :=
  match outcome with
  | .ok ps => s'.GoesOn outer level ps parsed phrase
  | .error failure => parsed = ⟨.error failure, s'.registry⟩

/-- **`s.Agrees phrase outcome s'`**: whatever brackets are open, what the stack machine makes of the tokens
at `s` follows the phrase. -/
def Agrees (s : PatternReader) (phrase : Phrase) (outcome : Except Failure (List (Pattern Nat)))
    (s' : PatternReader) : Prop :=
  ∀ outer level, s.StartsFrom level phrase →
    s'.Follows outer level phrase outcome (s.resume outer level)

theorem resume_of_current? {token : String} (h : s.cursor.current? = some token) :
    s.resume outer level =
      ((s.draft outer level).advance token s.next.cursor.tokens).conclude := by
  rw [resume, Cursor.tokens_eq_cons h, Draft.run_cons]
  rfl

/-- A bar ends the alternative under way. -/
theorem resume_bar (h : s.cursor.isAt "|" = true) :
    s.resume outer level = s.next.resume outer level.startAlternative :=
  resume_of_current? (Cursor.isAt_iff.mp h)

/-- Atoms that no ellipsis follows are taken up as they are. -/
theorem conclude_takeAtoms_one {atoms : List (Pattern Nat)} (h : s.cursor.isAt "..." = false) :
    ((s.draft outer level).takeAtoms atoms s.cursor.tokens).conclude =
      s.resume outer (level.add atoms) := by
  exact Draft.conclude_takeAtoms (Cursor.not_isAt_iff.mp h) _ _

theorem conclude_takeAtoms_repeated {atoms : List (Pattern Nat)} (h : s.cursor.isAt "..." = true) :
    ((s.draft outer level).takeAtoms atoms s.cursor.tokens).conclude =
      s.next.resume outer (level.add [.oneOrMore (asRepeated atoms)]) := by
  rw [Cursor.tokens_eq_cons (Cursor.isAt_iff.mp h)]
  rfl

/-- An opening bracket that does not start the shorthand puts the level on the stack. -/
theorem resume_opening {b : Bracket} (h : s.cursor.isAt b.opening = true)
    (hshorthand : b = .square → s.next.cursor.isAt "options" = false) :
    s.resume outer level = s.next.resume ((b, level) :: outer) .empty := by
  rw [resume_of_current? (Cursor.isAt_iff.mp h), Draft.advance_opening,
    Draft.openBracket_eq_more]
  · rfl
  · exact fun hb => Cursor.not_isAt_iff.mp (hshorthand hb)

/-- Its like takes the level off again, as an atom. -/
theorem resume_closing {b : Bracket} {l : Level} (h : s.cursor.isAt b.closing = true) :
    s.resume ((b, level) :: outer) l =
      ((s.next.draft outer level).takeAtoms [b.group l.close] s.next.cursor.tokens).conclude := by
  rw [resume_of_current? (Cursor.isAt_iff.mp h), Draft.advance_closing]
  exact congrArg Progress.conclude (if_pos rfl)

theorem endsExpression_cases (h : s.EndsExpression) :
    s.cursor.tokens = [] ∨ ∃ b : Bracket, s.cursor.current? = some b.closing := by
  obtain ⟨hend, hbar⟩ := h
  simp only [Cursor.endsSequence, hbar, Bool.or_eq_true, Bool.or_false] at hend
  rcases hend with (hend | hsquare) | hround
  · exact Or.inl (List.isEmpty_iff.mp hend)
  · exact Or.inr ⟨.square, Cursor.isAt_iff.mp hsquare⟩
  · exact Or.inr ⟨.round, Cursor.isAt_iff.mp hround⟩

/-- Where an expression ends, a bracket that is not closed by its like is a fault. -/
theorem resume_unmatched {b : Bracket} {l : Level} (hend : s.EndsExpression)
    (h : s.cursor.isAt b.closing = false) :
    s.resume ((b, level) :: outer) l =
      ⟨.error (s.cursor.failure (GrammarFault.unmatched b).message), s.registry⟩ := by
  rcases endsExpression_cases hend with htokens | ⟨b', htoken⟩
  · rw [resume, htokens, Draft.run_nil]
    rfl
  · have hne : b ≠ b' := by
      rintro rfl
      exact Cursor.not_isAt_iff.mp h htoken
    rw [resume_of_current? htoken, Draft.advance_closing]
    exact congrArg Progress.conclude (if_neg hne)

theorem not_isBracket_of_wordKind {token : String} (h : WordKind.of token ≠ .plain) :
    ¬ IsBracket token ∧ token ≠ "|" := by
  constructor
  · intro hbracket
    simp only [IsBracket, List.mem_cons, List.not_mem_nil, or_false] at hbracket
    rcases hbracket with rfl | rfl | rfl | rfl <;> exact h (by decide)
  · rintro rfl
    exact h (by decide)

theorem resume_options {reading : Reading} (h : s.cursor.options? s.registry = some reading) :
    s.resume outer level = ((s.draft outer level).takeOptions reading).conclude := by
  obtain ⟨token, htoken, ⟨hkind, rfl⟩ | ⟨hkind, rfl⟩⟩ := Cursor.exists_token_of_options? h
  · obtain ⟨hbracket, hbar⟩ := not_isBracket_of_wordKind (by rw [hkind]; decide)
    rw [resume_of_current? htoken, Draft.advance, TokenKind.of_word hbracket hbar, hkind,
      Cursor.tokens_eq_cons htoken]
    rfl
  · obtain ⟨hbracket, hbar⟩ := not_isBracket_of_wordKind (by rw [hkind]; decide)
    rw [resume_of_current? htoken, Draft.advance, TokenKind.of_word hbracket hbar, hkind,
      Cursor.tokens_eq_cons htoken]
    rfl

/-- A token at which no sequence ends and that opens no bracket is no bracket at all. -/
theorem not_isBracket_of_endsSequence {token : String} (htoken : s.cursor.current? = some token)
    (hend : s.cursor.endsSequence = false) (hopening : ∀ b : Bracket, token ≠ b.opening) :
    ¬ IsBracket token ∧ token ≠ "|" := by
  have hat : ∀ mark, s.cursor.isAt mark = false → token ≠ mark := by
    rintro mark hmark rfl
    exact Cursor.not_isAt_iff.mp hmark htoken
  simp only [Cursor.endsSequence, Bool.or_eq_false_iff] at hend
  obtain ⟨⟨⟨-, hsquare⟩, hround⟩, hbar⟩ := hend
  refine ⟨?_, hat _ hbar⟩
  simp only [IsBracket, List.mem_cons, List.not_mem_nil, or_false, not_or]
  exact ⟨hopening .round, hat _ hround, hopening .square, hat _ hsquare⟩

theorem resume_word {token : String} (htoken : s.cursor.current? = some token)
    (hend : s.cursor.endsSequence = false) (hopening : ∀ b : Bracket, token ≠ b.opening)
    (h : s.cursor.options? s.registry = none) :
    s.resume outer level =
      ((s.draft outer level).takeLeaves [wordLeaf token] s.next.cursor.tokens).conclude := by
  obtain ⟨hbracket, hbar⟩ := not_isBracket_of_endsSequence htoken hend hopening
  rw [resume_of_current? htoken, Draft.advance, TokenKind.of_word hbracket hbar, wordLeaf]
  rcases Cursor.wordKind_of_options?_eq_none htoken h with hkind | hkind
  · rw [hkind]
    rfl
  · by_cases hname : isArgumentName token.toList = true
    · simp [hkind, hname]
    · simp [hkind, hname]

theorem resume_shorthand (hopening : s.cursor.isAt "[" = true)
    (hshorthand : s.next.cursor.isAt "options" = true) :
    s.resume outer level =
      ((s.draft outer level).takeAnyOptions s.next.next.cursor.tokens).conclude := by
  rw [resume_of_current? (Cursor.isAt_iff.mp hopening),
    Cursor.tokens_eq_cons (Cursor.isAt_iff.mp hshorthand)]
  rfl

/-- **The stack machine follows the descent**, by induction on the way through the phrase. The brackets that
are open and the level are any, for a phrase inside a group is read with one bracket more. -/
theorem Reads.agrees {phrase : Phrase} {outcome : Except Failure (List (Pattern Nat))}
    (h : s.Reads phrase outcome s') : s.Agrees phrase outcome s' := by
  induction h with
  | @single s s' ps _ hbar ih =>
    rintro outer _ rfl
    obtain ⟨hend, hresume⟩ := ih outer .empty rfl
    exact ⟨⟨[], ps⟩, rfl, ⟨hend, hbar⟩, hresume⟩
  | @choice s s' s'' ps outcome _ hbar _ ihread ihrest =>
    rintro outer _ rfl
    obtain ⟨hend, hresume⟩ := ihread outer .empty rfl
    rw [hresume]
    -- the first sequence is still the alternative under way when the bar is met
    exact ihrest outer ⟨[], ps⟩ ⟨rfl, hend, fun _ => hbar⟩
  | expressionFails _ ih =>
    rintro outer _ rfl
    exact ih outer .empty rfl
  | @alternative s s' s'' read ps outcome hbar _ _ ihread ihrest =>
    rintro outer level ⟨hread, -, -⟩
    obtain ⟨hend, hresume⟩ := ihread outer level.startAlternative rfl
    rw [resume_bar hbar, hresume]
    refine ihrest outer ⟨level.startAlternative.finished, ps⟩ ⟨?_, hend, ?_⟩
    · rw [← hread]
      rfl
    · intro hnone
      exact absurd hnone (List.append_ne_nil_of_right_ne_nil _ (List.cons_ne_nil _ _))
  | alternativeFails hbar _ ih =>
    rintro outer level -
    rw [resume_bar hbar]
    exact ih outer level.startAlternative rfl
  | @lastAlternative s read hbar =>
    rintro outer level ⟨rfl, hend, hfirst⟩
    -- a bar has been met, or else the cursor would be at one
    refine ⟨level, Level.close_of_bar ?_, ⟨hend, hbar⟩, rfl⟩
    intro hnone
    rw [hfirst hnone] at hbar
    cases hbar
  | sequenceEnds hend =>
    rintro outer level rfl
    exact ⟨hend, rfl⟩
  | @one s s' s'' read atoms outcome hend _ hellipsis _ ihread ihrest =>
    rintro outer level rfl
    rw [ihread outer level hend, conclude_takeAtoms_one hellipsis]
    exact ihrest outer (level.add atoms) rfl
  | @repeated s s' s'' read atoms outcome hend _ hellipsis _ ihread ihrest =>
    rintro outer level rfl
    rw [ihread outer level hend, conclude_takeAtoms_repeated hellipsis]
    exact ihrest outer (level.add [.oneOrMore (asRepeated atoms)]) rfl
  | sequenceFails hend _ ih =>
    rintro outer level -
    exact ih outer level hend
  | nothing hnone =>
    intro outer level hend
    simp [StartsFrom, Cursor.endsSequence, hnone] at hend
  | @group s s' b ps hopening hshorthand _ hclosing ih =>
    rintro outer level -
    -- the level around the bracket waits on the stack for the expression to return
    obtain ⟨l, rfl, -, hresume⟩ := ih ((b, level) :: outer) .empty rfl
    rw [resume_opening hopening hshorthand, hresume]
    exact resume_closing hclosing
  | @unmatched s s' b ps hopening hshorthand _ hclosing ih =>
    rintro outer level -
    obtain ⟨l, -, hend, hresume⟩ := ih ((b, level) :: outer) .empty rfl
    rw [resume_opening hopening hshorthand, hresume]
    exact resume_unmatched hend hclosing
  | groupFails hopening hshorthand _ ih =>
    rintro outer level -
    rw [resume_opening hopening hshorthand]
    exact ih ((_, level) :: outer) .empty rfl
  | shorthand hopening hshorthand hclosing =>
    rintro outer level -
    rw [resume_shorthand hopening hshorthand,
      Cursor.tokens_eq_cons (Cursor.isAt_iff.mp hclosing)]
    rfl
  | openShorthand hopening hshorthand hclosing =>
    rintro outer level -
    rw [resume_shorthand hopening hshorthand, Draft.takeAnyOptions]
    · rfl
    · intro rest htokens
      exact Cursor.not_isAt_iff.mp hclosing (List.head?_eq_some_iff.mpr ⟨rest, htokens⟩)
  | options hreading hos =>
    rintro outer level -
    rw [resume_options hreading, Draft.takeOptions, hos]
    rfl
  | optionsFail hreading hfailure =>
    rintro outer level -
    rw [resume_options hreading, Draft.takeOptions, hfailure]
    rfl
  | word htoken hbracket hreading =>
    intro outer level hend
    exact resume_word htoken hend hbracket hreading

theorem Descends.eq_parsePattern {registry : Registry} {source : String} {parsed : Parsed}
    (h : Descends registry source parsed) : parsed = parsePattern registry source := by
  have hstart : (start registry source).resume [] .empty = parsePattern registry source := rfl
  cases h with
  | whole hread hend =>
    obtain ⟨l, rfl, -, hresume⟩ := hread.agrees [] .empty rfl
    rw [← hstart, hresume, resume, List.isEmpty_iff.mp hend, Draft.run_nil]
    rfl
  | @trailing s ps hread hend =>
    obtain ⟨l, rfl, hends, hresume⟩ := hread.agrees [] .empty rfl
    rw [← hstart, hresume]
    rcases endsExpression_cases hends with htokens | ⟨b, htoken⟩
    · rw [Cursor.isAtEnd, htokens] at hend
      cases hend
    · rw [resume_of_current? htoken, Draft.advance_closing, Cursor.tokens_eq_cons htoken]
      rfl
  | fails hread => exact (hread.agrees [] .empty rfl).symm.trans hstart

/-! ### There is a way through each phrase -/

/-- The number of tokens to come. -/
def length (s : PatternReader) : Nat := s.cursor.tokens.length

/-- The phrase returns, and at most the tokens to come are taken. -/
def Returns (s : PatternReader) (phrase : Phrase) : Prop :=
  ∃ outcome s', s.Reads phrase outcome s' ∧ s'.length ≤ s.length

/-- An atom returns, and takes a token at least. -/
def ReturnsAtom (s : PatternReader) : Prop :=
  ∃ outcome s', s.Reads .atom outcome s' ∧ s'.length < s.length

theorem length_next_le (s : PatternReader) : s.next.length ≤ s.length := by
  rw [length, next, Cursor.advance, List.length_drop]
  exact Nat.sub_le _ _

/-- The shorthand for options returns, closed or not. -/
theorem exists_shorthand (hopening : s.cursor.isAt "[" = true)
    (hshorthand : s.next.cursor.isAt "options" = true) : s.ReturnsAtom := by
  have hless : s.next.next.next.length < s.length :=
    calc s.next.next.next.length
      _ ≤ s.next.next.length := length_next_le _
      _ ≤ s.next.length := length_next_le _
      _ < s.length := Cursor.length_advance (Cursor.isAt_iff.mp hopening)
  cases hclosing : s.next.next.cursor.isAt "]" with
  | true => exact ⟨_, _, .shorthand hopening hshorthand hclosing, hless⟩
  | false => exact ⟨_, _, .openShorthand hopening hshorthand hclosing, hless⟩

/-- A group returns, closed or not, if the expression in it does. -/
theorem exists_group {b : Bracket} (hopening : s.cursor.isAt b.opening = true)
    (hshorthand : b = .square → s.next.cursor.isAt "options" = false)
    (hexpression : s.next.Returns .expression) : s.ReturnsAtom := by
  obtain ⟨outcome, s', hread, hle⟩ := hexpression
  have hless : s'.length < s.length :=
    Nat.lt_of_le_of_lt hle (Cursor.length_advance (Cursor.isAt_iff.mp hopening))
  cases outcome with
  | error failure => exact ⟨_, s', .groupFails hopening hshorthand hread, hless⟩
  | ok ps =>
    have hless' : s'.next.length < s.length := Nat.lt_of_le_of_lt (length_next_le s') hless
    cases hclosing : s'.cursor.isAt b.closing with
    | true => exact ⟨_, _, .group hopening hshorthand hread hclosing, hless'⟩
    | false => exact ⟨_, _, .unmatched hopening hshorthand hread hclosing, hless'⟩

/-- An atom returns if every expression on fewer tokens does. -/
theorem exists_atom (hexpression : ∀ t : PatternReader, t.length < s.length → t.Returns .expression)
    (hend : s.cursor.endsSequence = false) : s.ReturnsAtom := by
  cases htoken : s.cursor.current? with
  | none =>
    have hnone : s.cursor.isAtEnd = true := List.isEmpty_iff.mpr (List.head?_eq_none_iff.mp htoken)
    simp [Cursor.endsSequence, hnone] at hend
  | some token =>
    have hnext : s.next.length < s.length := Cursor.length_advance htoken
    cases hreading : s.cursor.options? s.registry with
    | some reading =>
      have hless := Cursor.length_behind hreading
      cases houtcome : reading.outcome with
      | error failure => exact ⟨_, _, .optionsFail hreading houtcome, hless⟩
      | ok os => exact ⟨_, _, .options hreading houtcome, hless⟩
    | none =>
      by_cases hbracket : ∃ b : Bracket, token = b.opening
      · obtain ⟨b, rfl⟩ := hbracket
        have hopening := Cursor.isAt_iff.mpr htoken
        by_cases hshorthand : b = .square ∧ s.next.cursor.isAt "options" = true
        · obtain ⟨rfl, hoptions⟩ := hshorthand
          exact exists_shorthand hopening hoptions
        · refine exists_group hopening ?_ (hexpression s.next hnext)
          exact fun hb => Bool.eq_false_iff.mpr fun hoptions => hshorthand ⟨hb, hoptions⟩
      · exact ⟨_, _, .word htoken (not_exists.mp hbracket) hreading, hnext⟩

/-- A sequence returns if each of its atoms does. -/
theorem exists_sequence {n : Nat}
    (hatom : ∀ t : PatternReader, t.length ≤ n → t.cursor.endsSequence = false → t.ReturnsAtom)
    (s : PatternReader) (hs : s.length ≤ n) (read : List (Pattern Nat)) :
    s.Returns (.sequence read) := by
  induction hlength : s.length using Nat.strong_induction_on generalizing s read with
  | _ m ih =>
    subst hlength
    cases hend : s.cursor.endsSequence with
    | true => exact ⟨_, s, .sequenceEnds hend, Nat.le_refl _⟩
    | false =>
      obtain ⟨outcome, s', hread, hless⟩ := hatom s hs hend
      cases outcome with
      | error failure => exact ⟨_, s', .sequenceFails hend hread, Nat.le_of_lt hless⟩
      | ok atoms =>
        cases hellipsis : s'.cursor.isAt "..." with
        | false =>
          obtain ⟨outcome, s'', hrest, hle⟩ := ih _ hless s' (by omega) (read ++ atoms) rfl
          exact ⟨outcome, s'', .one hend hread hellipsis hrest, by omega⟩
        | true =>
          have hnext : s'.next.length < s'.length := Cursor.length_advance (Cursor.isAt_iff.mp hellipsis)
          obtain ⟨outcome, s'', hrest, hle⟩ := ih _ (hnext.trans hless) s'.next (by omega)
            (read ++ [.oneOrMore (asRepeated atoms)]) rfl
          exact ⟨outcome, s'', .repeated hend hread hellipsis hrest, by omega⟩

/-- Alternatives return if each sequence does. -/
theorem exists_alternatives {n : Nat}
    (hsequence : ∀ t : PatternReader, t.length ≤ n → t.Returns (.sequence []))
    (s : PatternReader) (hs : s.length ≤ n) (read : List (List (Pattern Nat))) :
    s.Returns (.alternatives read) := by
  induction hlength : s.length using Nat.strong_induction_on generalizing s read with
  | _ m ih =>
    subst hlength
    cases hbar : s.cursor.isAt "|" with
    | false => exact ⟨_, s, .lastAlternative hbar, Nat.le_refl _⟩
    | true =>
      have hnext : s.next.length < s.length := Cursor.length_advance (Cursor.isAt_iff.mp hbar)
      obtain ⟨outcome, s', hread, hle⟩ := hsequence s.next (by omega)
      cases outcome with
      | error failure => exact ⟨_, s', .alternativeFails hbar hread, by omega⟩
      | ok ps =>
        obtain ⟨outcome, s'', hrest, hle'⟩ := ih _ (Nat.lt_of_le_of_lt hle hnext) s' (by omega)
          (read ++ [ps]) rfl
        exact ⟨outcome, s'', .alternative hbar hread hrest, by omega⟩

/-- An expression returns. A bracket calls for an expression again, but on fewer tokens. -/
theorem exists_expression (s : PatternReader) : s.Returns .expression := by
  induction hlength : s.length using Nat.strong_induction_on generalizing s with
  | _ n ih =>
    have hatom : ∀ t : PatternReader, t.length ≤ n → t.cursor.endsSequence = false →
        t.ReturnsAtom := by
      intro t ht hend
      -- inside a bracket of `t` there are fewer tokens than in `t`, so fewer than `n`
      exact exists_atom (fun u hu => ih u.length (by omega) u rfl) hend
    have hsequence : ∀ t : PatternReader, t.length ≤ n → t.Returns (.sequence []) :=
      fun t ht => exists_sequence hatom t ht []
    obtain ⟨outcome, s', hread, hle⟩ := hsequence s (Nat.le_of_eq hlength)
    cases outcome with
    | error failure => exact ⟨_, s', .expressionFails hread, hle⟩
    | ok ps =>
      cases hbar : s'.cursor.isAt "|" with
      | false => exact ⟨_, s', .single hread hbar, hle⟩
      | true =>
        obtain ⟨outcome, s'', hrest, hle'⟩ :=
          exists_alternatives hsequence s' (by omega) [ps]
        exact ⟨outcome, s'', .choice hread hbar hrest, by omega⟩

theorem exists_descends (registry : Registry) (source : String) :
    ∃ parsed, Descends registry source parsed := by
  obtain ⟨outcome, s, hread, -⟩ := exists_expression (start registry source)
  cases outcome with
  | error failure => exact ⟨_, .fails hread⟩
  | ok ps =>
    cases hend : s.cursor.isAtEnd with
    | true => exact ⟨_, .whole hread hend⟩
    | false => exact ⟨_, .trailing hread hend⟩

end PatternReader

/-- **Reading with a stack is reading by descent.** For any text and any options known before, the descent
ends in one way only, and that is how the pattern is read: with the same tree or the same failure, and
with the same options known afterwards. -/
theorem parsePattern_eq_iff_descends {registry : Registry} {source : String} {parsed : Parsed} :
    parsePattern registry source = parsed ↔ PatternReader.Descends registry source parsed := by
  constructor
  · rintro rfl
    obtain ⟨parsed, h⟩ := PatternReader.exists_descends registry source
    rw [← h.eq_parsePattern]
    exact h
  · intro h
    exact h.eq_parsePattern.symm

end Synopsis
