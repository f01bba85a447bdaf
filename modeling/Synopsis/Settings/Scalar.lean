/-!
# Scalars of a YAML document

A scalar is written plain or between quotes. In single quotes a doubled quote stands for one, and
nothing else is special. In double quotes a backslash introduces an escape: a letter for a common
character, or two, four or eight hexadecimal digits for any other. A scalar ends on the line on
which it starts.
Main statements: reading a quoted scalar consumes its closing quote
(`length_readSingle`, `length_readDouble`).
-/

namespace Synopsis.Yaml

/-- A scalar as it is written. -/
inductive Scalar where
  /-- Without quotes. -/
  | plain (text : String)
  /-- In single or double quotes. -/
  | quoted (text : String)
  deriving DecidableEq, Repr

namespace Scalar

/-- The text of a scalar. -/
def text : Scalar → String
  | plain s => s
  | quoted s => s

/-- A text in lower-case ASCII letters. -/
def lower (s : String) : String := String.ofList (s.toList.map Char.toLower)

/-- The scalar stands for no value: it is plain, and empty, a tilde or the word for it in any case of
letters. -/
def isNull : Scalar → Bool
  | plain s => s == "" || s == "~" || lower s == "null"
  | quoted _ => false

/-- The absent scalar. -/
def absent : Scalar := plain ""

end Scalar

/-! ## Single quotes -/

/-- The text up to the closing single quote, a doubled quote standing for one, and what follows. -/
def readSingle : List Char → Option (List Char × List Char)
  | [] => none
  | '\'' :: '\'' :: cs => (readSingle cs).map fun r => ('\'' :: r.1, r.2)
  | '\'' :: cs => some ([], cs)
  | '\n' :: _ => none
  | c :: cs => (readSingle cs).map fun r => (c :: r.1, r.2)

theorem length_readSingle {cs : List Char} {r : List Char × List Char}
    (h : readSingle cs = some r) : r.2.length < cs.length := by
  fun_induction readSingle cs generalizing r with
  | case1 => simp at h
  | case2 cs ih | case5 c cs _ _ _ ih =>
    obtain ⟨q, hq, rfl⟩ := Option.map_eq_some_iff.mp h
    have := ih hq
    simp only [List.length_cons]
    omega
  | case3 cs =>
    simp only [Option.some.injEq] at h
    simp [← h]
  | case4 => simp at h

/-! ## Double quotes -/

/-- The text up to the closing double quote, escapes as they are written, and what follows. -/
def readDouble : List Char → Option (List Char × List Char)
  | [] => none
  | '"' :: cs => some ([], cs)
  | '\n' :: _ => none
  | '\\' :: c :: cs =>
    if c = '\n' then none else (readDouble cs).map fun r => ('\\' :: c :: r.1, r.2)
  | c :: cs => (readDouble cs).map fun r => (c :: r.1, r.2)

theorem length_readDouble {cs : List Char} {r : List Char × List Char}
    (h : readDouble cs = some r) : r.2.length < cs.length := by
  fun_induction readDouble cs generalizing r with
  | case1 => simp at h
  | case2 cs =>
    simp only [Option.some.injEq] at h
    simp [← h]
  | case3 => simp at h
  | case4 cs => simp at h
  | case5 c cs _ ih | case6 c cs _ _ _ ih =>
    obtain ⟨q, hq, rfl⟩ := Option.map_eq_some_iff.mp h
    have := ih hq
    simp only [List.length_cons]
    omega

/-- The character that a backslash and a letter stand for. -/
def escaped? : Char → Option Char
  | '0' => some '\x00'
  | 'a' => some '\x07'
  | 'b' => some '\x08'
  | 't' => some '\t'
  | '\t' => some '\t'
  | 'n' => some '\n'
  | 'v' => some '\x0b'
  | 'f' => some '\x0c'
  | 'r' => some '\r'
  | 'e' => some '\x1b'
  | ' ' => some ' '
  | '"' => some '"'
  | '/' => some '/'
  | '\\' => some '\\'
  | 'N' => some '\u0085'
  | '_' => some '\u00a0'
  | 'L' => some '\u2028'
  | 'P' => some '\u2029'
  | _ => none

/-- How many hexadecimal digits follow a backslash and a letter. -/
def codeLength? : Char → Option Nat
  | 'x' => some 2
  | 'u' => some 4
  | 'U' => some 8
  | _ => none

/-- The value of a hexadecimal digit, in either case. -/
def hexDigit? (c : Char) : Option Nat :=
  if c.isDigit then some (c.toNat - '0'.toNat)
  else if 'a' ≤ c ∧ c ≤ 'f' then some (c.toNat - 'a'.toNat + 10)
  else if 'A' ≤ c ∧ c ≤ 'F' then some (c.toNat - 'A'.toNat + 10)
  else none

/-- The character with the code point that the digits give, if it is one. -/
def ofHex? (digits : List Char) : Option Char :=
  match digits.foldlM (fun n c => (hexDigit? c).map fun d => 16 * n + d) 0 with
  | some n => if n.isValidChar then some (Char.ofNat n) else none
  | none => none

/-- The text with its escapes resolved, if all of them mean something. -/
def unescape : List Char → Option (List Char)
  | [] => some []
  | c :: cs =>
    if c = '\\' then
      match cs with
      | [] => none
      | e :: rest =>
        match codeLength? e with
        | some n =>
          if rest.length < n then none
          else
            match ofHex? (rest.take n), unescape (rest.drop n) with
            | some d, some ds => some (d :: ds)
            | _, _ => none
        | none =>
          match escaped? e, unescape rest with
          | some d, some ds => some (d :: ds)
          | _, _ => none
    else (unescape cs).map (c :: ·)
termination_by cs => cs.length
decreasing_by
  · simp only [List.length_drop, List.length_cons]
    omega
  · simp only [List.length_cons]
    omega
  · simp

end Synopsis.Yaml
