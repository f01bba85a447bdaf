import Synopsis.Settings.Scalar
import Synopsis.Text.Split

/-!
# Flat YAML documents

Settings are written in a small part of YAML: a single mapping from names to scalars, in block form
with one entry on a line, or in flow form between braces. An empty document, or a null alone, stands
for the empty mapping. A text is first scanned into tokens, and the entries are then read from the
tokens; all else that YAML allows is refused.
The scan ends because each step consumes a character.
-/

namespace Synopsis.Yaml

open Text

/-! ## Characters -/

/-- Blanks within a line. -/
def isSpace (c : Char) : Bool := c == ' ' || c == '\t'

/-- Blanks and the end of a line. -/
def isGap (c : Char) : Bool := isSpace c || c == '\n'

/-- Characters with a meaning of their own between braces. -/
def isFlowMark (c : Char) : Bool := c == ',' || c == '[' || c == ']' || c == '{' || c == '}'

/-- Characters that no plain scalar starts with. The marks of a block scalar mean nothing between
braces. -/
def isReserved (flow : Bool) (c : Char) : Bool :=
  isFlowMark c || c == '#' || c == '&' || c == '*' || c == '!' || c == '%' || c == '@' ||
    c == '\x60' || (!flow && (c == '|' || c == '>'))

/-- Nothing follows, or a blank. -/
def atGap : List Char → Bool
  | [] => true
  | c :: _ => isGap c

/-- A mark of the flow form follows. -/
def atFlowMark : List Char → Bool
  | [] => false
  | c :: _ => isFlowMark c

/-- What follows a colon makes it the end of a key: a blank, or between braces a mark. -/
def endsKey (flow : Bool) (cs : List Char) : Bool := atGap cs || (flow && atFlowMark cs)

/-- ASCII letters, digits, the underscore and the dash. -/
def isWordChar (c : Char) : Bool := c.isAlphanum || c == '_' || c == '-'

/-- A colon may be followed by this: a gap of tabs alone is too little in front of a word. -/
def separates (cs : List Char) : Bool :=
  match cs.takeWhile isSpace, cs.dropWhile isSpace with
  | '\t' :: gap, c :: _ => gap.contains ' ' || !isWordChar c
  | _, _ => true

/-! ## Plain scalars -/

/-- The scan of a plain scalar stops here: at the end of its line, before a comment, before a colon
that ends a key, and between braces before a mark or before a dash that is no word. -/
def stopsPlain (flow afterSpace : Bool) (c : Char) (cs : List Char) : Bool :=
  c == '\n' || (c == '#' && afterSpace) || (c == ':' && endsKey flow cs) ||
    (flow && (isFlowMark c || (c == '-' && afterSpace && atFlowMark cs)))

/-- The rest of a plain scalar, and what follows it. -/
def plainSpan (flow afterSpace : Bool) : List Char → List Char × List Char
  | [] => ([], [])
  | c :: cs =>
    if stopsPlain flow afterSpace c cs then ([], c :: cs)
    else
      let r := plainSpan flow (isSpace c) cs
      (c :: r.1, r.2)

theorem length_plainSpan (flow afterSpace : Bool) (cs : List Char) :
    (plainSpan flow afterSpace cs).2.length ≤ cs.length := by
  fun_induction plainSpan flow afterSpace cs with
  | case1 => simp
  | case2 => simp
  | case3 afterSpace c cs _ _ ih => exact Nat.le_succ_of_le ih

/-- The text without the blanks at its end. -/
def trimSpaces (cs : List Char) : List Char := (cs.reverse.dropWhile isSpace).reverse

/-- A plain scalar may start here. After a dash or a question mark the scalar has to go on, and
between braces no mark may follow the dash. -/
def startsPlain (flow : Bool) (c : Char) (cs : List Char) : Bool :=
  if c == '-' then !atGap cs && !(flow && atFlowMark cs)
  else if c == '?' then !atGap cs
  else !isReserved flow c

/-! ## Tokens -/

/-- What a document is scanned into. -/
inductive Tok where
  /-- A scalar. -/
  | scalar (s : Scalar)
  /-- The colon after a key. -/
  | colon
  /-- The comma between entries in braces. -/
  | comma
  /-- The opening brace. -/
  | opening
  /-- The closing brace. -/
  | closing
  deriving DecidableEq, Repr

/-- The mark that a character is between braces. -/
def mark? (flow : Bool) (c : Char) : Option Tok :=
  if flow then
    match c with
    | ',' => some .comma
    | '{' => some .opening
    | '}' => some .closing
    | _ => none
  else none

/-- Scan a text, between braces or on one line. A comment starts only where a blank precedes it
(`afterSpace`), and between braces a colon after a quoted key (`afterQuoted`) needs no blank. -/
def scan (flow afterSpace afterQuoted : Bool) : List Char → Option (List Tok)
  | [] => some []
  | c :: cs =>
    if isGap c then scan flow true afterQuoted cs
    else if c = '#' ∧ afterSpace then scan flow true afterQuoted (cs.dropWhile (· != '\n'))
    else if c = '\'' then
      match _h : readSingle cs with
      | some r => (scan flow false true r.2).map (.scalar (.quoted (String.ofList r.1)) :: ·)
      | none => none
    else if c = '"' then
      match _h : readDouble cs with
      | some r =>
        match unescape r.1, scan flow false true r.2 with
        | some text, some ts => some (.scalar (.quoted (String.ofList text)) :: ts)
        | _, _ => none
      | none => none
    else if c = ':' ∧ (endsKey flow cs ∨ (flow ∧ afterQuoted)) then
      if separates cs then (scan flow true false cs).map (.colon :: ·) else none
    else
      match mark? flow c with
      | some t => (scan flow false false cs).map (t :: ·)
      | none =>
        if startsPlain flow c cs then
          let r := plainSpan flow false cs
          let text := trimSpaces (c :: r.1)
          (scan flow (text.length ≤ r.1.length) false r.2).map
            (.scalar (.plain (String.ofList text)) :: ·)
        else none
termination_by cs => cs.length
decreasing_by
  · simp
  · exact Nat.lt_succ_of_le (List.dropWhile_suffix _).length_le
  · exact Nat.lt_succ_of_lt (length_readSingle _h)
  · exact Nat.lt_succ_of_lt (length_readDouble _h)
  · simp
  · simp
  · exact Nat.lt_succ_of_le (length_plainSpan ..)

/-! ## Entries -/

/-- A key and its value. -/
abbrev Entry := Scalar × Scalar

/-- The entry of one line. -/
def entryOfTokens? : List Tok → Option Entry
  | [.scalar k, .colon] => some (k, .absent)
  | [.scalar k, .colon, .scalar v] => some (k, v)
  | _ => none

/-- The entries between braces, up to the closing one, with which the document ends. -/
def flowEntries? : List Tok → Option (List Entry)
  | [.closing] => some []
  | [.scalar k, .closing] => some [(k, .absent)]
  | [.scalar k, .colon, .closing] => some [(k, .absent)]
  | [.scalar k, .colon, .scalar v, .closing] => some [(k, v)]
  | .scalar k :: .comma :: rest => (flowEntries? rest).map ((k, .absent) :: ·)
  | .scalar k :: .colon :: .comma :: rest => (flowEntries? rest).map ((k, .absent) :: ·)
  | .scalar k :: .colon :: .scalar v :: .comma :: rest => (flowEntries? rest).map ((k, v) :: ·)
  | _ => none

/-! ## The two forms -/

/-- The line has no content: it is blank or a comment. -/
def isIdle (line : List Char) : Bool :=
  match line.dropWhile isSpace with
  | [] => true
  | c :: _ => c == '#'

/-- The width of the blanks in front of a line. -/
def indentation (line : List Char) : Nat := (line.takeWhile isSpace).length

/-- The entry of a line behind a given number of spaces. -/
def entryOfLine? (indent : Nat) (line : List Char) : Option Entry :=
  let content := line.drop indent
  if line.take indent = List.replicate indent ' ' ∧ indentation content = 0 then
    (scan false true false content).bind entryOfTokens?
  else none

/-- The entries of a document in block form: one on each line, all lines after the first indented
by as many spaces as it has blanks in front. -/
def blockEntries? : List (List Char) → Option (List Entry)
  | [] => some []
  | l :: ls =>
    match entryOfLine? 0 (l.drop (indentation l)), ls.mapM (entryOfLine? (indentation l)) with
    | some e, some es => some (e :: es)
    | _, _ => none

/-- The entries of a document in flow form. -/
def flowDocument? (ls : List (List Char)) : Option (List Entry) :=
  match scan true true false (['\n'].intercalate ls) with
  | some (.opening :: rest) => flowEntries? rest
  | _ => none

/-- The document is a null alone. -/
def isNullDocument (ls : List (List Char)) : Bool :=
  match ls with
  | [l] =>
    match scan false true false l with
    | some [.scalar s] => s.isNull
    | _ => false
  | _ => false

/-! ## Documents -/

/-- What follows the mark of the start of a document on its line, if the line has the mark. -/
def afterStart? (line : List Char) : Option (List Char) :=
  if ['-', '-', '-'].isPrefixOf line && atGap (line.drop 3) then some (line.drop 3) else none

/-- The entries of a document from its lines with content. Entries in block form cannot start on the
line that marks the start. -/
def bodyEntries? (afterStart : Bool) (ls : List (List Char)) : Option (List Entry) :=
  if isNullDocument ls then some []
  else if (ls.flatten.dropWhile isSpace).head? = some '{' then flowDocument? ls
  else if afterStart then none
  else blockEntries? ls

/-- A carriage return ends a line as a line feed does. -/
def endLine (c : Char) : Char := if c = '\r' then '\n' else c

/-- The lines of a document that have content. -/
def contentLines (text : String) : List (List Char) :=
  (lines (text.toList.map endLine)).filter fun l => !isIdle l

/-- The entries of a document, or none if it is not of the accepted form. -/
def entries? (text : String) : Option (List Entry) :=
  match contentLines text with
  | [] => some []
  | l :: ls =>
    match afterStart? l with
    | some rest => if isIdle rest then bodyEntries? false ls else bodyEntries? true (rest :: ls)
    | none => bodyEntries? false (l :: ls)

end Synopsis.Yaml
