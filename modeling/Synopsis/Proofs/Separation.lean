import Mathlib.Data.List.Infix
import Synopsis.Proofs.Nesting

/-!
# Tokens that blanks set apart

A text is cut at blanks, but also around brackets, bars and ellipses. `IsToken` lists the texts that
are one token each: those, and the words that hold none of them (`Clean`). Tokens that are joined
with blanks are cut where they were joined (`tokenize_intercalate`). Of any two texts, the second of
which starts with a blank, a bracket or a bar, each is cut as it is by itself (`tokenize_append`).
-/

namespace Synopsis

namespace Token

open Text

/-- **`Clean cs`**: the text holds no blank, no character that is a token by itself, and no
ellipsis. -/
structure Clean (cs : List Char) : Prop where
  blank : ∀ c ∈ cs, isBlank c = false
  delimiter : ∀ c ∈ cs, isDelimiter c = false
  ellipsis : ¬ ellipsis <:+: cs

theorem clean_iff {cs : List Char} :
    Clean cs ↔ (cs.all fun c => !isBlank c && !isDelimiter c) = true ∧ ¬ ellipsis <:+: cs := by
  simp only [List.all_eq_true, Bool.and_eq_true, Bool.not_eq_true']
  constructor
  · intro h
    exact ⟨fun c hc => ⟨h.blank c hc, h.delimiter c hc⟩, h.ellipsis⟩
  · rintro ⟨hchars, hdots⟩
    exact ⟨fun c hc => (hchars c hc).1, fun c hc => (hchars c hc).2, hdots⟩

instance (cs : List Char) : Decidable (Clean cs) := decidable_of_iff' _ clean_iff

/-- **`IsToken w`**: the text is one token wherever blanks stand around it. -/
inductive IsToken : List Char → Prop
  | delimiter {c : Char} (h : isDelimiter c = true) : IsToken [c]
  | ellipsis : IsToken ellipsis
  | word {w : List Char} (hne : w ≠ []) (h : Clean w) : IsToken w

theorem Clean.tail {c : Char} {cs : List Char} (h : Clean (c :: cs)) : Clean cs where
  blank := fun d hd => h.blank d (List.mem_cons_of_mem c hd)
  delimiter := fun d hd => h.delimiter d (List.mem_cons_of_mem c hd)
  ellipsis := fun hdots => h.ellipsis (hdots.trans (List.suffix_cons c cs).isInfix)

/-- Three dots do not run over the end of a clean text, if no dot follows it. -/
theorem Clean.ne_dots {w rest : List Char} (h : Clean w) (hw : w ≠ [])
    (hrest : rest.head? ≠ some '.') (cs : List Char) : w ++ rest ≠ '.' :: '.' :: '.' :: cs := by
  intro heq
  match w, hw with
  | [c], _ =>
    simp only [List.cons_append, List.nil_append, List.cons.injEq] at heq
    exact hrest (by rw [heq.2]; rfl)
  | [c, d], _ =>
    simp only [List.cons_append, List.nil_append, List.cons.injEq] at heq
    exact hrest (by rw [heq.2.2]; rfl)
  | c :: d :: e :: w, _ =>
    simp only [List.cons_append, List.cons.injEq] at heq
    obtain ⟨rfl, rfl, rfl, -⟩ := heq
    exact h.ellipsis ⟨[], w, rfl⟩

/-- A clean text is read into the token under way as a whole. -/
theorem splitFrom_clean {w rest : List Char} (h : Clean w) (hrest : rest.head? ≠ some '.')
    (pending : List Char) : splitFrom pending (w ++ rest) = splitFrom (pending ++ w) rest := by
  induction w generalizing pending with
  | nil => rw [List.nil_append, List.append_nil]
  | cons c w ih =>
    have hdots := h.ne_dots (List.cons_ne_nil c w) hrest
    rw [List.cons_append] at hdots ⊢
    rw [splitFrom]
    · rw [if_neg (by rw [h.blank c List.mem_cons_self]; decide),
        if_neg (by rw [h.delimiter c List.mem_cons_self]; decide), ih h.tail, List.append_assoc]
      rfl
    · intro cs hc hcs
      exact hdots cs (by rw [hc, hcs])

theorem isBlank_of_isDelimiter {c : Char} (h : isDelimiter c = true) : isBlank c = false := by
  simp only [isDelimiter, Bool.or_eq_true, beq_iff_eq] at h
  rcases h with (((rfl | rfl) | rfl) | rfl) | rfl <;> decide

theorem ne_dot_of_isDelimiter {c : Char} (h : isDelimiter c = true) : c ≠ '.' := by
  rintro rfl
  revert h
  decide

/-- **`Gap rest`**: the text is over, or a blank comes next. -/
def Gap (rest : List Char) : Prop := rest = [] ∨ ∃ cs, rest = ' ' :: cs

theorem Gap.head_ne_dot {rest : List Char} (h : Gap rest) : rest.head? ≠ some '.' := by
  rcases h with rfl | ⟨cs, rfl⟩
  · decide
  · intro hdot
    exact absurd (Option.some.inj hdot) (by decide)

theorem Gap.splitFrom {rest : List Char} (h : Gap rest) (pending : List Char) :
    splitFrom pending rest = keep pending (splitFrom [] rest.tail) := by
  rcases h with rfl | ⟨cs, rfl⟩
  · rfl
  · rw [Token.splitFrom]
    · rw [if_pos (by decide)]
      rfl
    · intro _ hc
      exact absurd hc (by decide)

/-- A token before a gap is cut off as a whole. -/
theorem splitFrom_token {w : List Char} (h : IsToken w) {rest : List Char} (hrest : Gap rest) :
    splitFrom [] (w ++ rest) = w :: splitFrom [] rest.tail := by
  cases h with
  | @delimiter c hc =>
    rw [List.cons_append, List.nil_append, Token.splitFrom]
    · rw [if_neg (by rw [isBlank_of_isDelimiter hc]; decide), if_pos hc, keep_nil,
        hrest.splitFrom, keep_nil]
    · intro _ hdot
      exact absurd hdot (ne_dot_of_isDelimiter hc)
  | ellipsis =>
    show Token.splitFrom [] ('.' :: '.' :: '.' :: rest) = _
    rw [Token.splitFrom, keep_nil, hrest.splitFrom, keep_nil]
  | word hne hclean =>
    obtain ⟨c, cs, rfl⟩ := List.exists_cons_of_ne_nil hne
    rw [splitFrom_clean hclean hrest.head_ne_dot, hrest.splitFrom, List.nil_append, keep_cons]

/-- Tokens that blanks set apart are cut where they were joined. -/
theorem split_intercalate {ws : List (List Char)} (h : ∀ w ∈ ws, IsToken w) :
    split ([' '].intercalate ws) = ws := by
  induction ws with
  | nil => rfl
  | cons w ws ih =>
    have hw := h w List.mem_cons_self
    have hws : ∀ v ∈ ws, IsToken v := fun v hv => h v (List.mem_cons_of_mem w hv)
    cases ws with
    | nil =>
      have hsplit := splitFrom_token hw (Or.inl rfl)
      rw [List.append_nil] at hsplit
      rw [List.intercalate_singleton]
      exact hsplit
    | cons v ws =>
      have hgap : Gap ([' '] ++ [' '].intercalate (v :: ws)) := Or.inr ⟨_, rfl⟩
      rw [split, List.intercalate_cons_cons, List.append_assoc, splitFrom_token hw hgap]
      exact congrArg (w :: ·) (ih hws)

theorem Clean.not_isBracket {token : String} (h : Clean token.toList) : ¬ IsBracket token := by
  intro hbracket
  simp only [IsBracket, List.mem_cons, List.not_mem_nil, or_false] at hbracket
  rcases hbracket with rfl | rfl | rfl | rfl
  · exact absurd h (by decide)
  · exact absurd h (by decide)
  · exact absurd h (by decide)
  · exact absurd h (by decide)

theorem Clean.ne_bar {token : String} (h : Clean token.toList) : token ≠ "|" := by
  rintro rfl
  exact absurd h (by decide)

theorem Clean.ne_ellipsis {token : String} (h : Clean token.toList) : token ≠ "..." := by
  rintro rfl
  exact h.ellipsis List.infix_rfl

/-- An ellipsis does not run over an equal sign. -/
theorem not_ellipsis_infix {name value : List Char} (hname : ¬ ellipsis <:+: name)
    (hvalue : ¬ ellipsis <:+: value) : ¬ ellipsis <:+: name ++ '=' :: value := by
  -- a part of the ellipsis at the equal sign would hold it
  have hpart : ∀ l, l ≠ [] → l ⊆ ellipsis → ¬ l <+: '=' :: value := by
    rintro (_ | ⟨c, l⟩) hl hsubset hstart
    · exact hl rfl
    · obtain ⟨rfl, -⟩ := List.cons_prefix_cons.mp hstart
      exact absurd (hsubset List.mem_cons_self) (by decide)
  intro hdots
  rcases List.infix_append_iff.mp hdots with h | h | ⟨l₁, l₂, heq, hsuffix, hstart⟩
  · exact hname h
  · rcases List.infix_cons_iff.mp h with h | h
    · exact hpart ellipsis (by decide) (List.Subset.refl _) h
    · exact hvalue h
  · by_cases hl₂ : l₂ = []
    · rw [hl₂, List.append_nil] at heq
      exact hname (heq ▸ hsuffix.isInfix)
    · exact hpart l₂ hl₂ (heq ▸ List.subset_append_right l₁ l₂) hstart

/-- A name and a value with an equal sign between them are clean if both are. -/
theorem Clean.append_equal {name value : List Char} (hname : Clean name) (hvalue : Clean value) :
    Clean (name ++ '=' :: value) where
  blank := by
    intro c hc
    rcases List.mem_append.mp hc with hc | hc
    · exact hname.blank c hc
    · rcases List.mem_cons.mp hc with rfl | hc
      · decide
      · exact hvalue.blank c hc
  delimiter := by
    intro c hc
    rcases List.mem_append.mp hc with hc | hc
    · exact hname.delimiter c hc
    · rcases List.mem_cons.mp hc with rfl | hc
      · decide
      · exact hvalue.delimiter c hc
  ellipsis := not_ellipsis_infix hname.ellipsis hvalue.ellipsis

/-! ## Texts that are cut at a break -/

/-- **`IsBreak c`**: the character ends the token before it. -/
def IsBreak (c : Char) : Prop := isBlank c = true ∨ isDelimiter c = true

theorem IsBreak.ne_dot {c : Char} (h : IsBreak c) : c ≠ '.' := by
  rcases h with hblank | hdelimiter
  · rintro rfl
    revert hblank
    decide
  · exact ne_dot_of_isDelimiter hdelimiter

/-- A text that does not start with an ellipsis does not when a break is put behind it. -/
theorem ne_dots_append {c : Char} (hc : IsBreak c) {d : Char} {cs : List Char}
    (h : ∀ ds, d = '.' → cs = '.' :: '.' :: ds → False) (rest ds : List Char) (hd : d = '.') :
    cs ++ c :: rest = '.' :: '.' :: ds → False := by
  intro heq
  match cs with
  | [] => exact hc.ne_dot (List.cons.inj heq).1
  | [e] => exact hc.ne_dot (List.cons.inj (List.cons.inj heq).2).1
  | e :: f :: cs =>
    simp only [List.cons_append, List.cons.injEq] at heq
    exact h cs hd (by rw [heq.1, heq.2.1])

theorem splitFrom_cons {c : Char} {cs : List Char}
    (h : ∀ ds, c = '.' → cs = '.' :: '.' :: ds → False) (pending : List Char) :
    splitFrom pending (c :: cs) =
      if isBlank c then keep pending (splitFrom [] cs)
      else if isDelimiter c then keep pending ([c] :: splitFrom [] cs)
      else splitFrom (pending ++ [c]) cs := by
  rw [splitFrom]
  exact h

theorem splitFrom_blank {c : Char} (h : isBlank c = true) (pending rest : List Char) :
    splitFrom pending (c :: rest) = keep pending (splitFrom [] rest) := by
  rw [splitFrom_cons fun _ hdot _ => IsBreak.ne_dot (Or.inl h) hdot, if_pos h]

theorem splitFrom_delimiter {c : Char} (h : isDelimiter c = true) (pending rest : List Char) :
    splitFrom pending (c :: rest) = keep pending ([c] :: splitFrom [] rest) := by
  rw [splitFrom_cons fun _ hdot _ => ne_dot_of_isDelimiter h hdot,
    if_neg (by rw [isBlank_of_isDelimiter h]; decide), if_pos h]

theorem splitFrom_break {c : Char} (h : IsBreak c) (pending rest : List Char) :
    splitFrom pending (c :: rest) = keep pending (splitFrom [] (c :: rest)) := by
  rcases h with hblank | hdelimiter
  · rw [splitFrom_blank hblank, splitFrom_blank hblank, keep_nil]
  · rw [splitFrom_delimiter hdelimiter, splitFrom_delimiter hdelimiter, keep_nil]

/-- What stands before a break is cut as if the text ended there. -/
theorem splitFrom_append_break {c : Char} (hc : IsBreak c) (pending cs rest : List Char) :
    splitFrom pending (cs ++ c :: rest) = splitFrom pending cs ++ splitFrom [] (c :: rest) := by
  fun_induction splitFrom pending cs with
  | case1 pending =>
    rw [← keep_append]
    exact splitFrom_break hc pending rest
  | case2 pending cs ih =>
    show splitFrom pending ('.' :: '.' :: '.' :: (cs ++ c :: rest)) = _
    rw [splitFrom, ih, ← keep_append]
    rfl
  | case3 pending d cs hdots hblank ih =>
    rw [List.cons_append, splitFrom_blank hblank, ih, keep_append]
  | case4 pending d cs hdots hblank hdelimiter ih =>
    rw [List.cons_append, splitFrom_delimiter hdelimiter, ih, ← List.cons_append, keep_append]
  | case5 pending d cs hdots hblank hdelimiter ih =>
    rw [List.cons_append, splitFrom_cons (ne_dots_append hc hdots rest), if_neg hblank,
      if_neg hdelimiter, ih]

end Token

theorem ne_empty_of_mem_tokenize {source token : String} (h : token ∈ tokenize source) : token ≠ "" := by
  rintro rfl
  obtain ⟨t, ht, hempty⟩ := List.mem_map.mp h
  exact Token.ne_nil_of_mem_split ht (String.ofList_eq_empty_iff.mp hempty)

theorem tokenize_intercalate {tokens : List String}
    (h : ∀ token ∈ tokens, Token.IsToken token.toList) : tokenize (" ".intercalate tokens) = tokens := by
  have hsplit : Token.split ([' '].intercalate (tokens.map String.toList)) =
      tokens.map String.toList := by
    apply Token.split_intercalate
    intro w hw
    obtain ⟨token, htoken, rfl⟩ := List.mem_map.mp hw
    exact h token htoken
  have hblank : " ".toList = [' '] := rfl
  rw [tokenize, String.toList_intercalate, hblank, hsplit, List.map_map]
  have hid : String.ofList ∘ String.toList = id := funext fun s => String.ofList_toList
  rw [hid, List.map_id]

/-- A text before one that starts with a break is cut by itself, and so is that one. -/
theorem tokenize_append {s rest : String} {c : Char} {cs : List Char} (hrest : rest.toList = c :: cs)
    (hc : Token.IsBreak c) : tokenize (s ++ rest) = tokenize s ++ tokenize rest := by
  rw [tokenize, String.toList_append, hrest, Token.split, Token.splitFrom_append_break hc,
    List.map_append, tokenize, tokenize, hrest]
  rfl

theorem tokenize_delimiter {token : String} {c : Char} (htoken : token.toList = [c])
    (hc : Token.isDelimiter c = true) (rest : String) :
    tokenize (token ++ rest) = token :: tokenize rest := by
  rw [tokenize, String.toList_append, htoken, List.singleton_append, Token.split,
    Token.splitFrom_delimiter hc, Text.keep_nil, List.map_cons, ← htoken, String.ofList_toList]
  rfl

theorem tokenize_blank {c : Char} {blank : String} (hblank : blank.toList = [c])
    (hc : Text.isBlank c = true) (rest : String) : tokenize (blank ++ rest) = tokenize rest := by
  rw [tokenize, String.toList_append, hblank, List.singleton_append, Token.split,
    Token.splitFrom_blank hc, Text.keep_nil]
  rfl

theorem tokenize_group (b : Bracket) (s rest : String) :
    tokenize (b.opening ++ s ++ (b.closing ++ rest)) =
      b.opening :: (tokenize s ++ b.closing :: tokenize rest) := by
  obtain ⟨c, hopening, hc⟩ : ∃ c, b.opening.toList = [c] ∧ Token.isDelimiter c = true := by
    cases b <;> exact ⟨_, rfl, by decide⟩
  obtain ⟨d, hclosing, hd⟩ : ∃ d, b.closing.toList = [d] ∧ Token.isDelimiter d = true := by
    cases b <;> exact ⟨_, rfl, by decide⟩
  have hrest : (b.closing ++ rest).toList = d :: rest.toList := by
    rw [String.toList_append, hclosing]
    rfl
  rw [String.append_assoc, tokenize_delimiter hopening hc, tokenize_append hrest (Or.inr hd),
    tokenize_delimiter hclosing hd]

theorem tokenize_enclosed (b : Bracket) (s : String) :
    tokenize (b.opening ++ s ++ b.closing) = b.opening :: (tokenize s ++ [b.closing]) := by
  have hgroup := tokenize_group b s ""
  rw [String.append_empty] at hgroup
  exact hgroup

end Synopsis
