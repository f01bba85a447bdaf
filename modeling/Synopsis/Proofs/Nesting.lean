import Synopsis.Tree.Grammar

/-!
# Nesting of brackets

`Nested` says of tokens that their brackets are properly nested and matched by kind, as a grammar would say it
and with no word about reading. `closes` decides it with a stack of open brackets (`nested_iff_closes`). For the
way back, `Pending` says what the tokens have to be like while brackets are open.
-/

namespace Synopsis

/-- The token is a bracket. -/
def IsBracket (token : String) : Prop := token ∈ ["(", ")", "[", "]"]

instance (token : String) : Decidable (IsBracket token) :=
  inferInstanceAs (Decidable (token ∈ ["(", ")", "[", "]"]))

/-- **`Nested tokens`**: the brackets among the tokens are properly nested and matched by kind. -/
inductive Nested : List String → Prop
  | nil : Nested []
  /-- Any other token may stand anywhere. -/
  | word {token : String} {rest : List String} (htoken : ¬ IsBracket token) (hrest : Nested rest) :
      Nested (token :: rest)
  /-- A pair of brackets of one kind, with what stands between them and behind them. -/
  | pair (b : Bracket) {inside rest : List String} (hinside : Nested inside)
      (hrest : Nested rest) : Nested (b.opening :: (inside ++ b.closing :: rest))

/-- **`k.Marks token`**: the token is the bracket that the kind says it is, or it is none. -/
def TokenKind.Marks : TokenKind → String → Prop
  | opening b, token => token = b.opening
  | closing b, token => token = b.closing
  | _, token => ¬ IsBracket token

/-- The kind of a token that is neither a bracket nor the bar depends on its dashes, and on its letters
if it has none. -/
theorem TokenKind.of_word {token : String} (hbracket : ¬ IsBracket token) (hbar : token ≠ "|") :
    TokenKind.of token =
      match WordKind.of token with
      | .separator => .command
      | .long => .long
      | .cluster => .cluster
      | .plain => if isArgumentName token.toList then .argument else .command := by
  have hne : token ≠ "(" ∧ token ≠ ")" ∧ token ≠ "[" ∧ token ≠ "]" := by
    simpa [IsBracket] using hbracket
  obtain ⟨h1, h2, h3, h4⟩ := hne
  rw [TokenKind.of, if_neg h1, if_neg h3, if_neg h2, if_neg h4]
  exact if_neg hbar

theorem TokenKind.ne_bar {token : String} {k : TokenKind} (h : TokenKind.of token = k)
    (hk : k ≠ .bar) : token ≠ "|" := by
  rintro rfl
  exact hk h.symm

theorem TokenKind.marks_of_eq {token : String} {k : TokenKind} (h : TokenKind.of token = k) :
    k.Marks token := by
  subst h
  by_cases hbracket : IsBracket token
  · simp only [IsBracket, List.mem_cons, List.not_mem_nil, or_false] at hbracket
    rcases hbracket with rfl | rfl | rfl | rfl <;> rfl
  · by_cases hbar : token = "|"
    · subst hbar
      exact hbracket
    · rw [TokenKind.of_word hbracket hbar]
      split
      · exact hbracket
      · exact hbracket
      · exact hbracket
      · split <;> exact hbracket

/-- The tokens close the brackets that are open, the innermost first, and those that they open
themselves. -/
def closes : List Bracket → List String → Bool
  | opened, [] => opened.isEmpty
  | opened, token :: rest =>
    match TokenKind.of token with
    | .opening b => closes (b :: opened) rest
    | .closing b => opened.head? == some b && closes opened.tail rest
    | _ => closes opened rest

@[simp] theorem closes_opening (opened : List Bracket) (b : Bracket) (rest : List String) :
    closes opened (b.opening :: rest) = closes (b :: opened) rest := by
  cases b <;> rfl

@[simp] theorem closes_closing (opened : List Bracket) (b : Bracket) (rest : List String) :
    closes opened (b.closing :: rest) = (opened.head? == some b && closes opened.tail rest) := by
  cases b <;> rfl

theorem closes_word (opened : List Bracket) {token : String} (h : ¬ IsBracket token)
    (rest : List String) : closes opened (token :: rest) = closes opened rest := by
  rw [closes]
  split
  · next b hkind =>
    obtain rfl : token = b.opening := TokenKind.marks_of_eq hkind
    cases b <;> exact absurd (by decide) h
  · next b hkind =>
    obtain rfl : token = b.closing := TokenKind.marks_of_eq hkind
    cases b <;> exact absurd (by decide) h
  · rfl

/-- Nested tokens leave the open brackets as they are. -/
theorem Nested.closes_append {inside : List String} (h : Nested inside) (opened : List Bracket)
    (rest : List String) : closes opened (inside ++ rest) = closes opened rest := by
  induction h generalizing opened rest with
  | nil => rfl
  | word htoken _ ih => rw [List.cons_append, closes_word _ htoken, ih]
  | pair b _ _ ihinside ihrest =>
    rw [List.cons_append, List.append_assoc, List.cons_append, closes_opening, ihinside,
      closes_closing, List.head?_cons, List.tail_cons, ihrest]
    simp

/-- **`Pending opened tokens`**: the tokens are nested up to the bracket that closes the innermost open
one, and so on outwards, and nested behind the last. -/
def Pending : List Bracket → List String → Prop
  | [], tokens => Nested tokens
  | b :: opened, tokens =>
    ∃ inside rest, tokens = inside ++ b.closing :: rest ∧ Nested inside ∧ Pending opened rest

theorem Pending.word {opened : List Bracket} {token : String} (htoken : ¬ IsBracket token)
    {rest : List String} (h : Pending opened rest) : Pending opened (token :: rest) := by
  cases opened with
  | nil => exact Nested.word htoken h
  | cons b opened =>
    obtain ⟨inside, rest, rfl, hinside, hrest⟩ := h
    exact ⟨token :: inside, rest, rfl, .word htoken hinside, hrest⟩

/-- An opening bracket and what closes it are part of what stands before the next bracket to close. -/
theorem Pending.opening {opened : List Bracket} {b : Bracket} {rest : List String}
    (h : Pending (b :: opened) rest) : Pending opened (b.opening :: rest) := by
  obtain ⟨inside, rest, rfl, hinside, hrest⟩ := h
  cases opened with
  | nil => exact Nested.pair b hinside hrest
  | cons outer opened =>
    obtain ⟨between, rest, rfl, hbetween, hrest⟩ := hrest
    refine ⟨b.opening :: (inside ++ b.closing :: between), rest, ?_, .pair b hinside hbetween, hrest⟩
    simp

theorem pending_of_closes {opened : List Bracket} {tokens : List String}
    (h : closes opened tokens = true) : Pending opened tokens := by
  induction tokens generalizing opened with
  | nil =>
    obtain rfl := List.isEmpty_iff.mp h
    exact Nested.nil
  | cons token rest ih =>
    unfold closes at h
    split at h
    · next b hkind =>
      obtain rfl : token = b.opening := TokenKind.marks_of_eq hkind
      exact (ih h).opening
    · next b hkind =>
      obtain rfl : token = b.closing := TokenKind.marks_of_eq hkind
      obtain ⟨hhead, hrest⟩ := Bool.and_eq_true_iff.mp h
      obtain ⟨opened, rfl⟩ := List.head?_eq_some_iff.mp (eq_of_beq hhead)
      exact ⟨[], rest, rfl, .nil, ih hrest⟩
    · next hopening hclosing =>
      have htoken : ¬ IsBracket token := by
        cases hkind : TokenKind.of token with
        | opening b => exact absurd hkind (hopening b)
        | closing b => exact absurd hkind (hclosing b)
        | bar | long | cluster | argument | command => exact TokenKind.marks_of_eq hkind
      exact (ih h).word htoken

/-- The stack of open brackets decides nesting. -/
theorem nested_iff_closes (tokens : List String) : Nested tokens ↔ closes [] tokens = true := by
  constructor
  · intro h
    have happend := h.closes_append [] []
    rw [List.append_nil] at happend
    exact happend
  · exact pending_of_closes

instance (tokens : List String) : Decidable (Nested tokens) :=
  decidable_of_iff _ (nested_iff_closes tokens).symm

end Synopsis
