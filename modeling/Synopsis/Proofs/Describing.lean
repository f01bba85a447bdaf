import Mathlib.Data.List.Infix
import Synopsis.Opt.Description
import Synopsis.Proofs.Blanks

/-!
# What a description is read from

A description is read from two parts of its text: from the words in front of its first double space come
names and arity, from the prose behind it comes the default (`describe`). Blanks at the end of either part
make no difference, so that a description may as well be divided before it is trimmed at the end
(`parse_eq_describe`).

A default starts at the first mark that has one and goes to the last closing bracket of its line. No
text in front of a mark can make it start earlier, unless it has a mark of its own
(`default?_append_bracket`), and no mark counts that has no closing bracket behind it
(`default?_eq_none`).
-/

namespace Synopsis.Description

open Text

variable {bl cs ds : List Char}

/-! ## Words in front of the double space -/

theorem isBlank_unpunctuate {c : Char} (h : isBlank c = true) : isBlank (unpunctuate c) = true := by
  unfold unpunctuate
  split
  · decide
  · exact h

theorem breaks_map_unpunctuate (h : Breaks cs) : Breaks (cs.map unpunctuate) := by
  cases cs with
  | nil => exact h
  | cons c cs => exact breaks_cons (isBlank_unpunctuate (h c rfl)) _

theorem specWords_append (h : Breaks (ds.map unpunctuate)) (cs : List Char) :
    specWords (cs ++ ds) = specWords cs ++ specWords ds := by
  rw [specWords, List.map_append]
  exact words_append_of_breaks h _

theorem specWords_append_right (h : AllBlank bl) (cs : List Char) : specWords (cs ++ bl) = specWords cs := by
  have hblank : AllBlank (bl.map unpunctuate) := by
    intro c hc
    obtain ⟨d, hd, rfl⟩ := List.mem_map.mp hc
    exact isBlank_unpunctuate (h d hd)
  have hnone : specWords bl = [] := words_of_allBlank hblank
  rw [specWords_append hblank.breaks, hnone, List.append_nil]

/-! ## The default -/

theorem beforeLastBracket?_append (h : ']' ∉ ds) (cs : List Char) :
    beforeLastBracket? (cs ++ ds) = beforeLastBracket? cs := by
  have hdrop : ∀ c ∈ ds.reverse, (c != ']') = true := by
    intro c hc
    rw [bne_iff_ne]
    rintro rfl
    exact h (List.mem_reverse.mp hc)
  unfold beforeLastBracket?
  rw [List.reverse_append, List.dropWhile_append_of_pos hdrop]
  simp [h]

theorem beforeLastBracket?_eq_none (h : ']' ∉ cs) : beforeLastBracket? cs = none := by
  simp [beforeLastBracket?, h]

/-- The last closing bracket is the one that no other follows. -/
theorem beforeLastBracket?_bracket (h : ']' ∉ ds) (cs : List Char) :
    beforeLastBracket? (cs ++ ']' :: ds) = some cs := by
  rw [← List.singleton_append, ← List.append_assoc, beforeLastBracket?_append h]
  simp [beforeLastBracket?]

theorem defaultHere?_of_no_mark (h : ¬ defaultMark <+: cs) : defaultHere? cs = none := by
  rw [defaultHere?, if_neg (by rwa [List.isPrefixOf_iff_prefix])]

/-- A mark introduces a default if a blank follows it. -/
theorem defaultHere?_mark (c : Char) (cs : List Char) :
    defaultHere? (defaultMark ++ c :: cs) =
      if isBlank c then beforeLastBracket? ((trimStart cs).takeWhile (· != '\n')) else none := by
  have hprefix : defaultMark.isPrefixOf (defaultMark ++ c :: cs) = true :=
    List.isPrefixOf_iff_prefix.mpr (List.prefix_append ..)
  rw [defaultHere?, if_pos hprefix, List.drop_left]

theorem defaultHere?_eq_none (h : ']' ∉ ds) : defaultHere? (defaultMark ++ ds) = none := by
  cases ds with
  | nil => rfl
  | cons c ds =>
    rw [defaultHere?_mark]
    split
    · apply beforeLastBracket?_eq_none
      intro hmem
      have hrest := (List.takeWhile_prefix _).subset hmem
      exact h (List.mem_cons_of_mem c ((trimStart_suffix ds).subset hrest))
    · rfl

/-- No default is found when no mark has a closing bracket behind it. -/
theorem default?_eq_none (h : ∀ before after, cs = before ++ (defaultMark ++ after) → ']' ∉ after) :
    default? cs = none := by
  induction cs with
  | nil => rfl
  | cons c cs ih =>
    have hhere : defaultHere? (c :: cs) = none := by
      by_cases hprefix : defaultMark <+: c :: cs
      · obtain ⟨after, hafter⟩ := hprefix
        rw [← hafter]
        exact defaultHere?_eq_none (h [] after hafter.symm)
      · exact defaultHere?_of_no_mark hprefix
    have hlater : default? cs = none := by
      apply ih
      intro before after hcs
      exact h (c :: before) after (by rw [hcs]; rfl)
    rw [default?, hhere, hlater]
    rfl

/-- A mark is in front of two texts only if it is in front of the first, or if the second goes on with one
of its characters. -/
theorem not_prefix_append (hne : cs ≠ []) (h : ¬ defaultMark <+: cs)
    (hds : ∀ d, ds.head? = some d → d ∉ defaultMark.tail) : ¬ defaultMark <+: cs ++ ds := by
  rintro ⟨after, hafter⟩
  rw [List.append_eq_append_iff] at hafter
  rcases hafter with ⟨more, hmore, -⟩ | ⟨more, hmore, hrest⟩
  · exact h ⟨more, hmore.symm⟩
  · cases more with
    | nil => exact h ⟨[], by rw [hmore]; simp⟩
    | cons d more =>
      obtain ⟨c, cs, rfl⟩ := List.exists_cons_of_ne_nil hne
      apply hds d (by rw [hrest]; rfl)
      rw [hmore]
      exact List.mem_append_right cs List.mem_cons_self

/-- A text without a mark makes no mark with a bracket behind it: the bracket of a mark is its first
character. -/
theorem default?_append_bracket (h : ¬ defaultMark <:+: cs) (ds : List Char) :
    default? (cs ++ '[' :: ds) = default? ('[' :: ds) := by
  induction cs with
  | nil => rfl
  | cons c cs ih =>
    have hhere : ¬ defaultMark <+: c :: cs ++ '[' :: ds := by
      refine not_prefix_append (List.cons_ne_nil c cs) (fun hmark => h hmark.isInfix) ?_
      intro d hd
      rw [← Option.some.inj hd]
      decide
    have hlater : ¬ defaultMark <:+: cs := fun hmark => h (hmark.trans (List.suffix_cons c cs).isInfix)
    rw [List.cons_append, default?, ← List.cons_append, defaultHere?_of_no_mark hhere, ih hlater]
    rfl

theorem defaultHere?_append_right (h : AllBlank bl) (hne : cs ≠ []) :
    defaultHere? (cs ++ bl) = defaultHere? cs := by
  by_cases hprefix : defaultMark <+: cs
  · obtain ⟨ds, rfl⟩ := hprefix
    rw [List.append_assoc]
    cases ds with
    | nil =>
      have hbracket : ']' ∉ bl := not_mem_of_allBlank (by decide) h
      rw [List.nil_append, defaultHere?_eq_none hbracket]
      rfl
    | cons c ds =>
      rw [List.cons_append, defaultHere?_mark, defaultHere?_mark]
      split
      · rcases trimStart_append_right h ds with ⟨hds, hlong⟩ | ⟨-, hlong⟩
        · rw [hlong, hds]
        · rw [hlong, List.takeWhile_append]
          split
          · next hline =>
            have hwhole : (trimStart ds).takeWhile (· != '\n') = trimStart ds :=
              (List.takeWhile_prefix _).eq_of_length hline
            have hblank : AllBlank (bl.takeWhile (· != '\n')) :=
              fun d hd => h d ((List.takeWhile_prefix _).subset hd)
            rw [hwhole, beforeLastBracket?_append (not_mem_of_allBlank (by decide) hblank)]
          · rfl
      · rfl
  · have hlong : ¬ defaultMark <+: cs ++ bl := by
      refine not_prefix_append hne hprefix ?_
      intro d hd hmark
      have hnone : Unbroken defaultMark.tail := by decide
      exact not_mem_of_allBlank (hnone d hmark) h (List.mem_of_head? hd)
    rw [defaultHere?_of_no_mark hprefix, defaultHere?_of_no_mark hlong]

/-- Blanks at the end of the prose do not change the default. -/
theorem default?_append_right (h : AllBlank bl) (cs : List Char) : default? (cs ++ bl) = default? cs := by
  induction cs with
  | nil =>
    apply default?_eq_none
    intro before after hbl
    rw [List.nil_append] at hbl
    have hmark : '[' ∈ bl := by
      rw [hbl]
      exact List.mem_append_right before List.mem_cons_self
    exact absurd hmark (not_mem_of_allBlank (by decide) h)
  | cons c cs ih =>
    rw [List.cons_append, default?, default?, ih, ← List.cons_append,
      defaultHere?_append_right h (List.cons_ne_nil c cs)]

/-! ## The whole description -/

/-- The option with the given words in front of the double space and the given default behind it. -/
def describe (ws : List (List Char)) (found : Option (List Char)) : Opt where
  short := (ws.filter isShortName).getLast?.map String.ofList
  long := (ws.filter isLongName).getLast?.map String.ofList
  arity := arityOf ws
  value :=
    match arityOf ws, found with
    | 1, some v => .str (String.ofList v)
    | _, _ => .bool false

/-- The default has a say in the value only. -/
theorem describe_eq_given (ws : List (List Char)) (found other : Option (List Char)) :
    describe ws found = (describe ws other).given (describe ws found).value := rfl

theorem sections_of_eq_some {x y : List Char} (h : cut? doubleSpace cs = some (x, y)) :
    sections cs = (x, y) := by
  rw [sections, h, Option.getD_some]

theorem sections_of_eq_none (h : cut? doubleSpace cs = none) : sections cs = (cs, []) := by
  rw [sections, h, Option.getD_none]

/-- A text that has no double space, and none over the border, takes up the names of what follows. -/
theorem sections_append_of_eq_none (h : cut? doubleSpace cs = none)
    (hborder : cs.getLast? ≠ some ' ' ∨ ds.head? ≠ some ' ') :
    sections (cs ++ ds) = (cs ++ (sections ds).1, (sections ds).2) := by
  rw [sections, sections, cut?_doubleSpace_append h hborder]
  cases cut? doubleSpace ds <;> rfl

/-- Both parts are taken from the text. -/
theorem mem_of_mem_sections {c : Char} (h : c ∈ (sections cs).1 ∨ c ∈ (sections cs).2) : c ∈ cs := by
  cases hcut : cut? doubleSpace cs with
  | none =>
    rw [sections_of_eq_none hcut] at h
    exact h.elim id fun hc => absurd hc List.not_mem_nil
  | some parts =>
    rw [sections_of_eq_some hcut] at h
    rw [cut?_append hcut]
    rcases h with h | h
    · exact List.mem_append_left _ (List.mem_append_left _ h)
    · exact List.mem_append_right _ h

/-- A description that is trimmed at the end loses blanks from its two parts, and nothing else. -/
theorem exists_sections_trimEnd (cs : List Char) :
    ∃ bl bl', AllBlank bl ∧ AllBlank bl' ∧
      sections cs = ((sections (trimEnd cs)).1 ++ bl, (sections (trimEnd cs)).2 ++ bl') := by
  obtain ⟨bl, hbl, hcs⟩ := exists_eq_trimEnd_append cs
  have hnone : AllBlank [] := fun _ hc => absurd hc List.not_mem_nil
  cases hcut : cut? doubleSpace (trimEnd cs) with
  | some parts =>
    obtain ⟨x, y⟩ := parts
    have hlong := cut?_append_of_eq_some hcut bl
    rw [← hcs] at hlong
    refine ⟨[], bl, hnone, hbl, ?_⟩
    rw [sections_of_eq_some hlong, sections_of_eq_some hcut, List.append_nil]
  | none =>
    have hborder : (trimEnd cs).getLast? ≠ some ' ' := by
      intro hlast
      exact absurd (getLast?_trimEnd hlast) (by decide)
    have hlong : sections (trimEnd cs ++ bl) = (trimEnd cs ++ (sections bl).1, (sections bl).2) :=
      sections_append_of_eq_none hcut (Or.inl hborder)
    rw [← hcs] at hlong
    refine ⟨(sections bl).1, (sections bl).2, ?_, ?_, ?_⟩
    · exact fun c hc => hbl c (mem_of_mem_sections (Or.inl hc))
    · exact fun c hc => hbl c (mem_of_mem_sections (Or.inr hc))
    · rw [hlong, sections_of_eq_none hcut, List.nil_append]

/-- **Trimming at the end is not needed.** -/
theorem parse_eq_describe (text : List Char) :
    parse text = describe (specWords (sections (trimStart text)).1)
      (default? (sections (trimStart text)).2) := by
  obtain ⟨bl, bl', hbl, hbl', hparts⟩ := exists_sections_trimEnd (trimStart text)
  rw [hparts, specWords_append_right hbl, default?_append_right hbl']
  rfl

/-- Descriptions that are the same when trimmed describe the same option. -/
theorem parse_congr {text other : List Char} (h : trim text = trim other) : parse text = parse other := by
  rw [parse, h]
  rfl

end Synopsis.Description
