import Synopsis.Text.CharClass

/-!
# Blank characters, trimming and words

A character is blank when it has the property White_Space. Texts are handled as lists of
characters; a `word` is a maximal run without a blank. Main statements: words are never empty and
hold no blank (`mem_words`), and blanks in front of a text change no word (`words_blank_cons`).
-/

namespace Synopsis.Text

/-! ## The class -/

/-- The property White_Space: ASCII blanks, NEL, no-break space and the Unicode spaces and
separators. -/
def blanks : CharClass :=
  [(0x9, 0xD), (0x20, 0x20), (0x85, 0x85), (0xA0, 0xA0), (0x1680, 0x1680), (0x2000, 0x200A),
   (0x2028, 0x2029), (0x202F, 0x202F), (0x205F, 0x205F), (0x3000, 0x3000)]

/-- The character separates words. -/
def isBlank (c : Char) : Bool := blanks.contains c

/-! ## Trimming -/

/-- The text from its first character that is not blank. -/
def trimStart (cs : List Char) : List Char := cs.dropWhile isBlank

/-- The text up to its last character that is not blank. -/
def trimEnd (cs : List Char) : List Char := (cs.reverse.dropWhile isBlank).reverse

/-- The text without the blanks around it. -/
def trim (cs : List Char) : List Char := trimEnd (trimStart cs)

theorem trimStart_suffix (cs : List Char) : trimStart cs <:+ cs := List.dropWhile_suffix _

/-! ## Words -/

/-- A finished piece in front of the pieces after it; an empty piece is dropped. -/
def keep (piece : List Char) (pieces : List (List Char)) : List (List Char) :=
  if piece.isEmpty then pieces else piece :: pieces

@[simp] theorem keep_nil (pieces : List (List Char)) : keep [] pieces = pieces := rfl

@[simp] theorem keep_cons (c : Char) (cs : List Char) (pieces : List (List Char)) :
    keep (c :: cs) pieces = (c :: cs) :: pieces := rfl

theorem mem_keep {w piece : List Char} {pieces : List (List Char)} :
    w ∈ keep piece pieces ↔ (w = piece ∧ piece ≠ []) ∨ w ∈ pieces := by
  cases piece <;> simp

theorem keep_append (piece : List Char) (ps qs : List (List Char)) :
    keep piece (ps ++ qs) = keep piece ps ++ qs := by
  cases piece <;> rfl

/-- The words of a text, with `pending` read so far of the first. -/
def wordsFrom (pending : List Char) : List Char → List (List Char)
  | [] => keep pending []
  | c :: cs =>
    if isBlank c then keep pending (wordsFrom [] cs) else wordsFrom (pending ++ [c]) cs

/-- The maximal runs of characters that are not blank, in order. -/
def words (cs : List Char) : List (List Char) := wordsFrom [] cs

theorem words_blank_cons {c : Char} (h : isBlank c = true) (cs : List Char) :
    words (c :: cs) = words cs := by
  simp [words, wordsFrom, h]

theorem mem_wordsFrom {pending cs w : List Char} (hp : ∀ c ∈ pending, isBlank c = false)
    (hw : w ∈ wordsFrom pending cs) : w ≠ [] ∧ ∀ c ∈ w, isBlank c = false := by
  induction cs generalizing pending with
  | nil =>
    rcases mem_keep.mp hw with ⟨rfl, hne⟩ | hmem
    · exact ⟨hne, hp⟩
    · simp at hmem
  | cons c cs ih =>
    by_cases hc : isBlank c = true
    · simp only [wordsFrom, hc, if_true] at hw
      rcases mem_keep.mp hw with ⟨rfl, hne⟩ | hmem
      · exact ⟨hne, hp⟩
      · exact ih (by simp) hmem
    · simp only [wordsFrom, hc, Bool.false_eq_true, if_false] at hw
      refine ih ?_ hw
      intro d hd
      rcases List.mem_append.mp hd with hd | hd
      · exact hp d hd
      · simp only [List.mem_singleton] at hd
        subst hd
        simpa using hc

/-- A word is not empty and holds no blank. -/
theorem mem_words {cs w : List Char} (hw : w ∈ words cs) :
    w ≠ [] ∧ ∀ c ∈ w, isBlank c = false :=
  mem_wordsFrom (by simp) hw

end Synopsis.Text
