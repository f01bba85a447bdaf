import Mathlib.Data.List.TakeWhile
import Synopsis.Text.Blank
import Synopsis.Text.Split

/-!
# Blanks around a text, and where a text is cut

Blanks at the end of a text are lost when it is trimmed, and they change none of its words. The words of
two texts one behind the other are those of each, if a word cannot run over the border
(`words_append_of_breaks`). A cut at a double space is found in the first of two texts if there is one in
it (`cut?_append_of_eq_some`); otherwise it is the cut of the second, unless a space on either side of
the border makes one there (`cut?_doubleSpace_append`).
-/

namespace Synopsis.Text

variable {bl cs ds w : List Char}

/-- **`AllBlank cs`**: the text holds nothing but blanks. -/
def AllBlank (cs : List Char) : Prop := ∀ c ∈ cs, isBlank c = true

instance (cs : List Char) : Decidable (AllBlank cs) := List.decidableBAll (fun c => isBlank c = true) cs

/-- **`Unbroken cs`**: the text has no blank. -/
def Unbroken (cs : List Char) : Prop := ∀ c ∈ cs, isBlank c = false

instance (cs : List Char) : Decidable (Unbroken cs) := List.decidableBAll (fun c => isBlank c = false) cs

/-- **`Breaks cs`**: the text is empty or starts with a blank, so that no word runs on into it. -/
def Breaks (cs : List Char) : Prop := ∀ c, cs.head? = some c → isBlank c = true

theorem AllBlank.breaks (h : AllBlank bl) : Breaks bl := fun c hc => h c (List.mem_of_head? hc)

theorem not_mem_of_allBlank {c : Char} (hc : isBlank c = false) (h : AllBlank bl) : c ∉ bl := by
  intro hmem
  rw [h c hmem] at hc
  cases hc

theorem breaks_cons {c : Char} (h : isBlank c = true) (cs : List Char) : Breaks (c :: cs) := by
  intro d hd
  rwa [← Option.some.inj hd]

/-! ## Trimming -/

theorem trimStart_append_left (h : AllBlank bl) (cs : List Char) : trimStart (bl ++ cs) = trimStart cs :=
  List.dropWhile_append_of_pos h

theorem trimStart_of_allBlank (h : AllBlank bl) : trimStart bl = [] := List.dropWhile_eq_nil_iff.mpr h

theorem trimStart_append (hcs : trimStart cs ≠ []) (ds : List Char) :
    trimStart (cs ++ ds) = trimStart cs ++ ds := by
  rw [trimStart, List.dropWhile_append, if_neg (by rwa [List.isEmpty_iff])]
  rfl

/-- Blanks at the end of a text stay there, unless it has nothing else. -/
theorem trimStart_append_right (h : AllBlank bl) (cs : List Char) :
    (trimStart cs = [] ∧ trimStart (cs ++ bl) = []) ∨
      (trimStart cs ≠ [] ∧ trimStart (cs ++ bl) = trimStart cs ++ bl) := by
  by_cases hcs : trimStart cs = []
  · have hblank : AllBlank cs := List.dropWhile_eq_nil_iff.mp hcs
    exact Or.inl ⟨hcs, by rw [trimStart_append_left hblank, trimStart_of_allBlank h]⟩
  · exact Or.inr ⟨hcs, trimStart_append hcs bl⟩

theorem trimStart_eq_self (h : ∀ c, cs.head? = some c → isBlank c = false) : trimStart cs = cs := by
  cases cs with
  | nil => rfl
  | cons c cs => exact List.dropWhile_cons_of_neg (by rw [h c rfl]; decide)

theorem head?_trimStart {c : Char} (h : (trimStart cs).head? = some c) : isBlank c = false := by
  have hhead := List.head?_dropWhile_not isBlank cs
  rw [trimStart] at h
  rwa [h] at hhead

theorem trimStart_trimStart (cs : List Char) : trimStart (trimStart cs) = trimStart cs :=
  trimStart_eq_self fun _ hc => head?_trimStart hc

theorem trimEnd_append_right (h : AllBlank bl) (cs : List Char) : trimEnd (cs ++ bl) = trimEnd cs := by
  rw [trimEnd, List.reverse_append,
    List.dropWhile_append_of_pos fun c hc => h c (List.mem_reverse.mp hc)]
  rfl

/-- Trimming drops blanks only. -/
theorem exists_eq_trimEnd_append (cs : List Char) : ∃ bl, AllBlank bl ∧ cs = trimEnd cs ++ bl := by
  refine ⟨(cs.reverse.takeWhile isBlank).reverse, ?_, ?_⟩
  · intro c hc
    exact List.mem_takeWhile_imp (List.mem_reverse.mp hc)
  · rw [trimEnd, ← List.reverse_append, List.takeWhile_append_dropWhile, List.reverse_reverse]

theorem getLast?_trimEnd {c : Char} (h : (trimEnd cs).getLast? = some c) : isBlank c = false := by
  rw [trimEnd, List.getLast?_reverse] at h
  exact head?_trimStart h

theorem trim_append_right (h : AllBlank bl) (cs : List Char) : trim (cs ++ bl) = trim cs := by
  rcases trimStart_append_right h cs with ⟨hcs, hlong⟩ | ⟨-, hlong⟩
  · rw [trim, trim, hlong, hcs]
  · rw [trim, hlong, trimEnd_append_right h]
    rfl

/-! ## Words -/

theorem wordsFrom_append (h : Breaks ds) (pending cs : List Char) :
    wordsFrom pending (cs ++ ds) = wordsFrom pending cs ++ words ds := by
  induction cs generalizing pending with
  | nil =>
    cases ds with
    | nil => exact (List.append_nil _).symm
    | cons d ds =>
      have hd := h d rfl
      calc wordsFrom pending (d :: ds) = keep pending (words ds) := if_pos hd
        _ = keep pending [] ++ words ds := by rw [← keep_append, List.nil_append]
        _ = wordsFrom pending [] ++ words (d :: ds) := by rw [words_blank_cons hd, wordsFrom]
  | cons c cs ih =>
    rw [List.cons_append, wordsFrom, wordsFrom]
    split
    · rw [ih, keep_append]
    · exact ih _

/-- The words of a text in two parts are those of each part, if no word runs over the border. -/
theorem words_append_of_breaks (h : Breaks ds) (cs : List Char) : words (cs ++ ds) = words cs ++ words ds :=
  wordsFrom_append h [] cs

theorem words_append_left (h : AllBlank bl) (cs : List Char) : words (bl ++ cs) = words cs := by
  induction bl with
  | nil => rfl
  | cons c bl ih =>
    rw [List.cons_append, words_blank_cons (h c List.mem_cons_self)]
    exact ih fun d hd => h d (List.mem_cons_of_mem c hd)

theorem words_of_allBlank (h : AllBlank bl) : words bl = [] := by
  have hwords := words_append_left h []
  rwa [List.append_nil] at hwords

theorem wordsFrom_unbroken (h : Unbroken w) (pending : List Char) :
    wordsFrom pending w = keep (pending ++ w) [] := by
  induction w generalizing pending with
  | nil => rw [wordsFrom, List.append_nil]
  | cons c w ih =>
    rw [wordsFrom, if_neg (by rw [h c List.mem_cons_self]; decide),
      ih fun d hd => h d (List.mem_cons_of_mem c hd), List.append_assoc]
    rfl

/-- A text without a blank is one word. -/
theorem words_unbroken (hne : w ≠ []) (h : Unbroken w) : words w = [w] := by
  obtain ⟨c, cs, rfl⟩ := List.exists_cons_of_ne_nil hne
  rw [words, wordsFrom_unbroken h, List.nil_append, keep_cons]

/-! ## Cuts -/

/-- The first occurrence of a separator stays the first, whatever text follows. -/
theorem cut?_append_of_eq_some {sep before after : List Char} (h : cut? sep cs = some (before, after))
    (ds : List Char) : cut? sep (cs ++ ds) = some (before, after ++ ds) := by
  induction cs generalizing before with
  | nil =>
    have hsep : sep = [] := by
      have hlength := congrArg List.length (cut?_append h)
      simp only [List.length_nil, List.length_append] at hlength
      exact List.length_eq_zero_iff.mp (by omega)
    subst hsep
    cases h
    cases ds <;> rfl
  | cons c cs ih =>
    rw [cut?] at h
    rw [List.cons_append, cut?]
    split at h
    · next hhere =>
      have hprefix : sep <+: c :: cs := List.isPrefixOf_iff_prefix.mp hhere
      have hlong : sep <+: c :: (cs ++ ds) := hprefix.trans (List.prefix_append (c :: cs) ds)
      cases h
      rw [if_pos (List.isPrefixOf_iff_prefix.mpr hlong), ← List.cons_append,
        List.drop_append_of_le_length hprefix.length_le]
    · next hhere =>
      obtain ⟨⟨x, y⟩, hxy, hpair⟩ := Option.map_eq_some_iff.mp h
      -- the separator fits into the rest, so that it cannot run over the border from here
      have hlength : sep.length ≤ cs.length := by
        have := congrArg List.length (cut?_append hxy)
        simp only [List.length_append] at this
        omega
      have hfar : ¬ sep.isPrefixOf (c :: (cs ++ ds)) = true := by
        intro hlong
        rw [List.isPrefixOf_iff_prefix, ← List.cons_append] at hlong
        refine hhere (List.isPrefixOf_iff_prefix.mpr ?_)
        exact List.prefix_of_prefix_length_le hlong (List.prefix_append (c :: cs) ds)
          (by rw [List.length_cons]; omega)
      cases hpair
      rw [if_neg hfar, ih hxy]
      rfl

/-- Two spaces, which set the names of an option apart from what is said about it. -/
abbrev doubleSpace : List Char := [' ', ' ']

/-- A text without a double space in front of another one only moves the cut, if the two spaces are not
one on either side of the border. -/
theorem cut?_doubleSpace_append (hnone : cut? doubleSpace cs = none)
    (hborder : cs.getLast? ≠ some ' ' ∨ ds.head? ≠ some ' ') :
    cut? doubleSpace (cs ++ ds) = (cut? doubleSpace ds).map fun r => (cs ++ r.1, r.2) := by
  induction cs with
  | nil =>
    rw [List.nil_append]
    cases cut? doubleSpace ds <;> rfl
  | cons c cs ih =>
    rw [cut?] at hnone
    split at hnone
    · cases hnone
    · next hhere =>
      have hrest : cut? doubleSpace cs = none := Option.map_eq_none_iff.mp hnone
      have hfar : ¬ doubleSpace.isPrefixOf (c :: (cs ++ ds)) = true := by
        cases cs with
        | nil =>
          cases ds with
          | nil => exact hhere
          | cons d ds =>
            simp only [List.getLast?_singleton, List.head?_cons, ne_eq, Option.some.injEq] at hborder
            simp only [List.nil_append, List.isPrefixOf, Bool.and_true, Bool.and_eq_true,
              beq_iff_eq]
            rintro ⟨rfl, rfl⟩
            exact hborder.elim (fun h => h rfl) fun h => h rfl
        | cons d cs => simpa [doubleSpace, List.isPrefixOf] using hhere
      have hborder' : cs.getLast? ≠ some ' ' ∨ ds.head? ≠ some ' ' := by
        cases cs with
        | nil => exact Or.inl (by simp)
        | cons d cs => rwa [List.getLast?_cons_cons] at hborder
      rw [List.cons_append, cut?, if_neg hfar, ih hrest hborder', Option.map_map]
      rfl

end Synopsis.Text
