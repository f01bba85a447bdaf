import Synopsis.Proofs.Blanks
import Synopsis.Proofs.Separation

/-!
# Tokens are the words of a padded text

There is a slow way to cut a pattern into tokens: put a space on either side of each mark (`pad`) and take
the words of what comes out. The reader does it in one pass, with the token under way in its hand, and comes
to the same (`split_eq_words_pad`).

While it reads, no ellipsis starts in the token under way, not even one that ends in the text to come
(`Underway`): it would have been cut off before. So a token is a mark or holds none (`isToken_of_mem_split`),
and tokens that are joined with spaces are cut apart again.
-/

namespace Synopsis

namespace Token

open Text

/-! ## Marks -/

/-- The texts that are tokens wherever they stand. -/
def marks : List (List Char) := [['('], [')'], ['['], [']'], ['|'], ellipsis]

/-- The mark that a text starts with, if it does. -/
def mark? (cs : List Char) : Option (List Char) := marks.find? fun m => m.isPrefixOf cs

/-- The text with a space on either side of each mark. Marks are looked for from the left, and the search
goes on behind the mark that was found. -/
def pad : List Char → List Char
  | [] => []
  | c :: cs =>
    match mark? (c :: cs) with
    | some m => ' ' :: (m ++ ' ' :: pad (cs.drop (m.length - 1)))
    | none => c :: pad cs
termination_by cs => cs.length
decreasing_by
  · simp only [List.length_drop, List.length_cons]
    omega
  · simp only [List.length_cons]
    omega

theorem singleton_mem_marks {c : Char} : [c] ∈ marks ↔ isDelimiter c = true := by
  simp [marks, ellipsis, isDelimiter, or_assoc]

theorem mem_marks {m : List Char} : m ∈ marks ↔ (∃ c, m = [c] ∧ isDelimiter c = true) ∨ m = ellipsis := by
  constructor
  · intro hm
    simp only [marks, List.mem_cons, List.not_mem_nil, or_false] at hm
    rcases hm with rfl | rfl | rfl | rfl | rfl | rfl
    · exact Or.inl ⟨'(', rfl, by decide⟩
    · exact Or.inl ⟨')', rfl, by decide⟩
    · exact Or.inl ⟨'[', rfl, by decide⟩
    · exact Or.inl ⟨']', rfl, by decide⟩
    · exact Or.inl ⟨'|', rfl, by decide⟩
    · exact Or.inr rfl
  · rintro (⟨c, rfl, hc⟩ | rfl)
    · exact singleton_mem_marks.mpr hc
    · decide

theorem unbroken_of_mem_marks {m : List Char} (hm : m ∈ marks) : m ≠ [] ∧ Unbroken m := by
  revert m
  decide

theorem mark?_dots (cs : List Char) : mark? ('.' :: '.' :: '.' :: cs) = some ellipsis := by
  simp [mark?, marks, ellipsis]

theorem mark?_delimiter {c : Char} (h : isDelimiter c = true) (cs : List Char) :
    mark? (c :: cs) = some [c] := by
  simp only [isDelimiter, Bool.or_eq_true, beq_iff_eq] at h
  rcases h with (((rfl | rfl) | rfl) | rfl) | rfl <;> simp [mark?, marks]

theorem mark?_eq_none {c : Char} {cs : List Char} (hc : isDelimiter c = false)
    (hdots : ∀ ds, c = '.' → cs = '.' :: '.' :: ds → False) : mark? (c :: cs) = none := by
  rw [mark?, List.find?_eq_none]
  intro m hm hprefix
  rw [List.isPrefixOf_iff_prefix] at hprefix
  rcases mem_marks.mp hm with ⟨d, rfl, hd⟩ | rfl
  · obtain ⟨rfl, -⟩ := List.cons_prefix_cons.mp hprefix
    rw [hd] at hc
    cases hc
  · obtain ⟨rest, hrest⟩ := hprefix
    simp only [ellipsis, List.cons_append, List.nil_append, List.cons.injEq] at hrest
    exact hdots rest hrest.1.symm hrest.2.symm

/-! ## Padding -/

theorem pad_dots (cs : List Char) :
    pad ('.' :: '.' :: '.' :: cs) = ' ' :: (ellipsis ++ ' ' :: pad cs) := by
  rw [pad, mark?_dots]
  rfl

theorem pad_delimiter {c : Char} (h : isDelimiter c = true) (cs : List Char) :
    pad (c :: cs) = ' ' :: ([c] ++ ' ' :: pad cs) := by
  rw [pad, mark?_delimiter h]
  rfl

theorem pad_other {c : Char} {cs : List Char} (hc : isDelimiter c = false)
    (hdots : ∀ ds, c = '.' → cs = '.' :: '.' :: ds → False) : pad (c :: cs) = c :: pad cs := by
  rw [pad, mark?_eq_none hc hdots]

/-- A mark between spaces is a word, and ends the one under way. -/
theorem wordsFrom_mark {m : List Char} (hm : m ∈ marks) (pending rest : List Char) :
    wordsFrom pending (' ' :: (m ++ ' ' :: rest)) = keep pending (m :: words rest) := by
  obtain ⟨hne, hunbroken⟩ := unbroken_of_mem_marks hm
  have hspace : isBlank ' ' = true := by decide
  calc wordsFrom pending (' ' :: (m ++ ' ' :: rest))
      = keep pending (words (m ++ ' ' :: rest)) := if_pos hspace
    _ = keep pending (m :: words rest) := by
        rw [words_append_of_breaks (breaks_cons hspace rest), words_unbroken hne hunbroken,
          words_blank_cons hspace, List.singleton_append]

/-- The reader cuts as if the marks had been padded. -/
theorem wordsFrom_pad (pending cs : List Char) : wordsFrom pending (pad cs) = splitFrom pending cs := by
  fun_induction splitFrom pending cs with
  | case1 pending => rw [pad, wordsFrom]
  | case2 pending cs ih =>
    rw [pad_dots, wordsFrom_mark (by decide), ← ih]
    rfl
  | case3 pending c cs hdots hblank ih =>
    have hc : isDelimiter c = false := by
      cases hdelimiter : isDelimiter c with
      | false => rfl
      | true => rw [isBlank_of_isDelimiter hdelimiter] at hblank; cases hblank
    rw [pad_other hc hdots, wordsFrom, if_pos hblank, ih]
  | case4 pending c cs hdots hblank hdelimiter ih =>
    rw [pad_delimiter hdelimiter, wordsFrom_mark (singleton_mem_marks.mpr hdelimiter), ← ih]
    rfl
  | case5 pending c cs hdots hblank hdelimiter ih =>
    rw [pad_other (Bool.eq_false_iff.mpr hdelimiter) hdots, wordsFrom, if_neg hblank, ih]

theorem split_eq_words_pad (cs : List Char) : split cs = words (pad cs) := (wordsFrom_pad [] cs).symm

/-! ## The token under way -/

/-- **`Underway pending cs`**: what holds of the token that has been read up to the text `cs`. It has no
blank and no delimiter, and no ellipsis starts in it. -/
structure Underway (pending cs : List Char) : Prop where
  blank : ∀ c ∈ pending, isBlank c = false
  delimiter : ∀ c ∈ pending, isDelimiter c = false
  dots : ∀ s, s ≠ [] → s <:+ pending → ¬ ellipsis <+: s ++ cs

theorem underway_nil (cs : List Char) : Underway [] cs where
  blank := by simp
  delimiter := by simp
  dots := fun s hs hsuffix => absurd (List.suffix_nil.mp hsuffix) hs

theorem Underway.clean {pending cs : List Char} (h : Underway pending cs) : Clean pending where
  blank := h.blank
  delimiter := h.delimiter
  ellipsis := by
    rintro ⟨before, after, rfl⟩
    refine h.dots (ellipsis ++ after) (by simp [Token.ellipsis]) ⟨before, by simp⟩ ?_
    exact ⟨after ++ cs, by simp⟩

/-- One more character: an ellipsis that starts in the token under way would start in it before, or with
that character. -/
theorem Underway.push {pending cs : List Char} {c : Char} (h : Underway pending (c :: cs))
    (hblank : isBlank c = false) (hdelimiter : isDelimiter c = false)
    (hdots : ∀ ds, c = '.' → cs = '.' :: '.' :: ds → False) : Underway (pending ++ [c]) cs where
  blank := by
    intro d hd
    rcases List.mem_append.mp hd with hd | hd
    · exact h.blank d hd
    · rw [List.mem_singleton.mp hd]
      exact hblank
  delimiter := by
    intro d hd
    rcases List.mem_append.mp hd with hd | hd
    · exact h.delimiter d hd
    · rw [List.mem_singleton.mp hd]
      exact hdelimiter
  dots := by
    intro s hs hsuffix
    obtain ⟨t, rfl, ht⟩ : ∃ t, s = t ++ [c] ∧ t <:+ pending := by
      rcases List.suffix_concat_iff.mp hsuffix with hnil | ⟨t, rfl, ht⟩
      · exact absurd hnil hs
      · exact ⟨t, by simp, ht⟩
    rw [List.append_assoc, List.singleton_append]
    by_cases hnil : t = []
    · rintro ⟨rest, hrest⟩
      simp only [hnil, ellipsis, List.cons_append, List.nil_append, List.cons.injEq] at hrest
      exact hdots rest hrest.1.symm hrest.2.symm
    · exact h.dots t hnil ht

theorem isToken_of_mem_keep {pending cs t : List Char} (h : Underway pending cs)
    {ts : List (List Char)} (hts : t ∈ ts → IsToken t) (ht : t ∈ keep pending ts) : IsToken t := by
  rcases mem_keep.mp ht with ⟨rfl, hne⟩ | hmem
  · exact .word hne h.clean
  · exact hts hmem

theorem isToken_of_mem_splitFrom {pending cs t : List Char} (h : Underway pending cs)
    (ht : t ∈ splitFrom pending cs) : IsToken t := by
  fun_induction splitFrom pending cs with
  | case1 pending => exact isToken_of_mem_keep h (by simp) ht
  | case2 pending cs ih =>
    refine isToken_of_mem_keep h ?_ ht
    intro hmem
    rcases List.mem_cons.mp hmem with rfl | hmem
    · exact .ellipsis
    · exact ih (underway_nil cs) hmem
  | case3 pending c cs hdots hblank ih => exact isToken_of_mem_keep h (ih (underway_nil cs)) ht
  | case4 pending c cs hdots hblank hdelimiter ih =>
    refine isToken_of_mem_keep h ?_ ht
    intro hmem
    rcases List.mem_cons.mp hmem with rfl | hmem
    · exact .delimiter hdelimiter
    · exact ih (underway_nil cs) hmem
  | case5 pending c cs hdots hblank hdelimiter ih =>
    exact ih (h.push (Bool.eq_false_iff.mpr hblank) (Bool.eq_false_iff.mpr hdelimiter) hdots) ht

/-- What the reader cuts off would be cut off by itself. -/
theorem isToken_of_mem_split {cs t : List Char} (ht : t ∈ split cs) : IsToken t :=
  isToken_of_mem_splitFrom (underway_nil cs) ht

/-- A token with a mark in it is that mark. -/
theorem IsToken.eq_mark {t m : List Char} (ht : IsToken t) (hm : m ∈ marks) (h : m <:+: t) : t = m := by
  have hpos : 0 < m.length := List.length_pos_iff.mpr (unbroken_of_mem_marks hm).1
  cases ht with
  | @delimiter c hc =>
    have hle := h.length_le
    rw [List.length_singleton] at hle
    exact (h.eq_of_length (by simp; omega)).symm
  | ellipsis =>
    revert m
    decide
  | word hne hclean =>
    rcases mem_marks.mp hm with ⟨c, rfl, hc⟩ | rfl
    · have hmem : c ∈ t := h.subset (List.mem_singleton_self c)
      rw [hclean.delimiter c hmem] at hc
      cases hc
    · exact absurd h hclean.ellipsis

/-! ## Nothing but blanks is lost -/

theorem flatten_keep (piece : List Char) (pieces : List (List Char)) :
    (keep piece pieces).flatten = piece ++ pieces.flatten := by
  cases piece <;> simp

theorem flatten_splitFrom (pending cs : List Char) :
    (splitFrom pending cs).flatten = pending ++ cs.filter fun c => !isBlank c := by
  have hdot : isBlank '.' = false := by decide
  fun_induction splitFrom pending cs with
  | case1 pending => simp [flatten_keep]
  | case2 pending cs ih => simp [flatten_keep, ih, hdot, ellipsis]
  | case3 pending c cs hdots hblank ih => simp [flatten_keep, ih, hblank]
  | case4 pending c cs hdots hblank hdelimiter ih => simp [flatten_keep, ih, hblank]
  | case5 pending c cs hdots hblank hdelimiter ih => simp [ih, hblank]

end Token

open Text Token

theorem isToken_of_mem_tokenize {source token : String} (h : token ∈ tokenize source) :
    IsToken token.toList := by
  obtain ⟨t, ht, rfl⟩ := List.mem_map.mp h
  rw [String.toList_ofList]
  exact isToken_of_mem_split ht

theorem join_tokenize (source : String) :
    String.join (tokenize source) = String.ofList (source.toList.filter fun c => !isBlank c) := by
  have hsplit : (tokenize source).map String.toList = split source.toList := by
    rw [tokenize, List.map_map]
    simp [Function.comp_def]
  rw [← String.toList_inj, String.toList_join, String.toList_ofList, List.flatMap_def, hsplit, split,
    flatten_splitFrom, List.nil_append]

/-- **Reading tokens in one pass is padding and splitting.** The tokens of a pattern are the words of the
pattern with a space on either side of each mark. None is empty, one that holds a mark is that mark, all of
them in a row are the pattern without its blanks, and joined with spaces they are cut as they were. -/
theorem tokens_ofPattern_eq_words_pad (source : String) :
    (Cursor.ofPattern source).tokens = (words (pad source.toList)).map String.ofList ∧
      (∀ token ∈ (Cursor.ofPattern source).tokens, token ≠ "") ∧
      (∀ token ∈ (Cursor.ofPattern source).tokens, ∀ m ∈ marks, m <:+: token.toList → token.toList = m) ∧
      String.join (Cursor.ofPattern source).tokens =
        String.ofList (source.toList.filter fun c => !isBlank c) ∧
      (Cursor.ofPattern (" ".intercalate (Cursor.ofPattern source).tokens)).tokens =
        (Cursor.ofPattern source).tokens := by
  refine ⟨?_, ?_, ?_, join_tokenize source, ?_⟩
  · show tokenize source = _
    rw [tokenize, split_eq_words_pad]
  · exact fun token htoken => ne_empty_of_mem_tokenize htoken
  · intro token htoken m hm hinfix
    exact (isToken_of_mem_tokenize htoken).eq_mark hm hinfix
  · exact tokenize_intercalate fun token htoken => isToken_of_mem_tokenize htoken

/-- Four dots in a row are an ellipsis and a dot; two are part of a word, and so is a dot within one. -/
theorem tokens_ofPattern_sample :
    let source := "(-h|--file=f.txt)[N....] .."
    let tokens := (Cursor.ofPattern source).tokens
    tokens = ["(", "-h", "|", "--file=f.txt", ")", "[", "N", "...", ".", "]", ".."] ∧
      "..." ∈ tokens ∧ ellipsis ∈ marks ∧ ellipsis <:+: "...".toList ∧
      tokens = (words (pad source.toList)).map String.ofList ∧
      (∀ token ∈ tokens, token ≠ "") ∧
      (∀ token ∈ tokens, ∀ m ∈ marks, m <:+: token.toList → token.toList = m) ∧
      String.join tokens = String.ofList (source.toList.filter fun c => !isBlank c) ∧
      (Cursor.ofPattern (" ".intercalate tokens)).tokens = tokens := by
  intro source tokens
  have htokens : tokens =
      ["(", "-h", "|", "--file=f.txt", ")", "[", "N", "...", ".", "]", ".."] := by decide
  have hdots : "..." ∈ tokens := by rw [htokens]; decide
  exact ⟨htokens, hdots, by decide, List.infix_rfl, tokens_ofPattern_eq_words_pad source⟩

end Synopsis
