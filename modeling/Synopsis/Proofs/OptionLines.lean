import Synopsis.Proofs.Describing

/-!
# Option lines and the lines behind them

Each line that starts with a dash opens a description, and the lines up to the next one continue it. The
border between names and prose is looked for in the whole of that text. If the option line has a double
space, it is there; if not, the words of the lines behind it count as names and place holders up to the
first double space among them (`strays`). What comes of an option line is said in `Registry.ofHelp_lines`:
the lines behind it decide about the default alone, as long as there are no strays.

Descriptions do not depend on what stands before or behind them: the options of two texts, the second of
which starts with an option line, are those of the one and those of the other (`Registry.ofHelp_append`),
however the first text ends.
-/

namespace Synopsis

open Text Description

/-! ## Lines -/

namespace Text

theorem linesFrom_append_newline (pending cs ds : List Char) :
    linesFrom pending (cs ++ '\n' :: ds) = linesFrom pending (cs ++ ['\n']) ++ lines ds := by
  induction cs generalizing pending with
  | nil => rfl
  | cons c cs ih =>
    rw [List.cons_append, List.cons_append, linesFrom, linesFrom]
    split
    · rw [ih, List.cons_append]
    · exact ih _

/-- A line feed ends a line wherever it stands. -/
theorem lines_append_newline (cs ds : List Char) :
    lines (cs ++ '\n' :: ds) = lines (cs ++ ['\n']) ++ lines ds :=
  linesFrom_append_newline [] cs ds

/-- A line feed at the end of a text does to its last line what it does to every line: a carriage return
before it is lost, and it makes a line even of nothing. -/
theorem exists_last_line (pending cs : List Char) :
    ∃ ls last, linesFrom pending (cs ++ ['\n']) = ls ++ [dropReturn last] ∧
      linesFrom pending cs = ls ++ if last.isEmpty then [] else [last] := by
  induction cs generalizing pending with
  | nil => exact ⟨[], pending, rfl, rfl⟩
  | cons c cs ih =>
    rw [List.cons_append, linesFrom, linesFrom]
    split
    · obtain ⟨ls, last, hended, hopen⟩ := ih []
      exact ⟨dropReturn pending :: ls, last, by rw [hended]; rfl, by rw [hopen]; rfl⟩
    · exact ih _

/-- What a line loses to its line ending is blank. -/
theorem exists_eq_dropReturn_append (l : List Char) : ∃ bl, AllBlank bl ∧ l = dropReturn l ++ bl := by
  unfold dropReturn
  split
  · next hlast =>
    refine ⟨['\r'], by decide, ?_⟩
    exact (List.dropLast_append_getLast? '\r' hlast).symm
  · exact ⟨[], by decide, (List.append_nil l).symm⟩

end Text

namespace Description

variable {l m : List Char} {ls ms : List (List Char)}

/-! ## Blocks of lines -/

/-- The lines that continue the description that was opened before them. -/
def continuation (ls : List (List Char)) : List (List Char) := ls.takeWhile fun m => !opensBlock m

/-- The lines as they are added to a description. -/
def continued (ls : List (List Char)) : List Char := ls.flatMap ('\n' :: ·)

theorem blocks_cons_of_opens (h : opensBlock l = true) (ls : List (List Char)) :
    blocks (l :: ls) = (trimStart l ++ continued (continuation ls)) :: blocks ls := by
  rw [blocks, if_pos h]
  rfl

theorem blocks_cons_of_not_opens (h : opensBlock l = false) (ls : List (List Char)) :
    blocks (l :: ls) = blocks ls := by
  rw [blocks, if_neg (by rw [h]; decide)]

theorem continuation_append (hm : opensBlock m = true) (ls ms : List (List Char)) :
    continuation (ls ++ m :: ms) = continuation ls := by
  induction ls with
  | nil => simp [continuation, hm]
  | cons l ls ih =>
    cases hl : opensBlock l with
    | true => simp [continuation, hl]
    | false => simpa [continuation, hl] using ih

/-- An option line ends what comes before it, and starts afresh. -/
theorem blocks_append (hm : opensBlock m = true) (ls ms : List (List Char)) :
    blocks (ls ++ m :: ms) = blocks ls ++ blocks (m :: ms) := by
  induction ls with
  | nil => rfl
  | cons l ls ih =>
    cases hl : opensBlock l with
    | true =>
      rw [List.cons_append, blocks_cons_of_opens hl, blocks_cons_of_opens hl, continuation_append hm, ih]
      rfl
    | false => rw [List.cons_append, blocks_cons_of_not_opens hl, blocks_cons_of_not_opens hl, ih]

/-- **`OptionFree ls`**: none of the lines opens a description. -/
def OptionFree (ls : List (List Char)) : Prop := ∀ l ∈ ls, opensBlock l = false

instance (ls : List (List Char)) : Decidable (OptionFree ls) :=
  inferInstanceAs (Decidable (∀ l ∈ ls, opensBlock l = false))

theorem blocks_of_optionFree (h : OptionFree ls) : blocks ls = [] := by
  induction ls with
  | nil => rfl
  | cons l ls ih =>
    rw [blocks_cons_of_not_opens (h l List.mem_cons_self)]
    exact ih fun m hm => h m (List.mem_cons_of_mem l hm)

theorem blocks_cons_optionFree (hl : opensBlock l = true) (h : OptionFree ls) :
    blocks (l :: ls) = [trimStart l ++ continued ls] := by
  have hall : continuation ls = ls := by
    apply List.takeWhile_eq_self_iff.mpr
    intro m hm
    rw [h m hm]
    rfl
  rw [blocks_cons_of_opens hl, hall, blocks_of_optionFree h]

/-- Lines have no option line among them, or a last one. -/
theorem exists_last_option_line (ls : List (List Char)) :
    OptionFree ls ∨
      ∃ before l after, ls = before ++ l :: after ∧ opensBlock l = true ∧ OptionFree after := by
  induction ls with
  | nil => exact Or.inl fun _ hl => absurd hl List.not_mem_nil
  | cons k ls ih =>
    rcases ih with hfree | ⟨before, l, after, rfl, hl, hafter⟩
    · cases hk : opensBlock k with
      | true => exact Or.inr ⟨[], k, ls, rfl, hk, hfree⟩
      | false => exact Or.inl (List.forall_mem_cons.mpr ⟨hk, hfree⟩)
    · exact Or.inr ⟨k :: before, l, after, rfl, hl, hafter⟩

theorem OptionFree.append (hls : OptionFree ls) (hms : OptionFree ms) : OptionFree (ls ++ ms) :=
  List.forall_mem_append.mpr ⟨hls, hms⟩

/-- Lines at the end that open nothing go to the last description, and count only by what is read from it
with them. -/
theorem map_parse_blocks_append {ms ms' : List (List Char)} (hms : OptionFree ms) (hms' : OptionFree ms')
    (h : ∀ text, parse (text ++ continued ms) = parse (text ++ continued ms')) (ls : List (List Char)) :
    (blocks (ls ++ ms)).map parse = (blocks (ls ++ ms')).map parse := by
  rcases exists_last_option_line ls with hls | ⟨before, l, after, rfl, hl, hafter⟩
  · rw [blocks_of_optionFree (hls.append hms), blocks_of_optionFree (hls.append hms')]
  · have hlast : ∀ ns, OptionFree ns → (blocks (before ++ l :: after ++ ns)).map parse =
        (blocks before).map parse ++ [parse (trimStart l ++ continued after ++ continued ns)] := by
      intro ns hns
      have hjoin : continued (after ++ ns) = continued after ++ continued ns := List.flatMap_append
      rw [List.append_assoc, List.cons_append, blocks_append hl,
        blocks_cons_optionFree hl (hafter.append hns), List.map_append, hjoin, ← List.append_assoc]
      rfl
    rw [hlast ms hms, hlast ms' hms', h]

/-! ## The end of a text -/

theorem opensBlock_append_right {bl : List Char} (h : AllBlank bl) (l : List Char) :
    opensBlock (l ++ bl) = opensBlock l := by
  rcases trimStart_append_right h l with ⟨hl, hlong⟩ | ⟨hl, hlong⟩
  · rw [opensBlock, opensBlock, hlong, hl]
  · rw [opensBlock, opensBlock, hlong, List.head?_append_of_ne_nil _ hl]

/-- A line that ends a text may lose blanks at its end. -/
theorem map_parse_blocks_concat {bl : List Char} (h : AllBlank bl) (ls : List (List Char))
    (l : List Char) :
    (blocks (ls ++ [l ++ bl])).map parse = (blocks (ls ++ [l])).map parse := by
  have hopens := opensBlock_append_right h l
  cases hl : opensBlock l with
  | true =>
    have halone : ∀ k, opensBlock k = true →
        (blocks (ls ++ [k])).map parse = (blocks ls).map parse ++ [parse k] := by
      intro k hk
      have htrim : trim (trimStart k ++ continued []) = trim k := by
        rw [continued, List.flatMap_nil, List.append_nil, trim, trimStart_trimStart]
        rfl
      rw [blocks_append hk, blocks_cons_optionFree hk (by decide), List.map_append, List.map_singleton,
        parse_congr htrim]
    rw [halone l hl, halone (l ++ bl) (hopens.trans hl), parse_congr (trim_append_right h l)]
  | false =>
    apply map_parse_blocks_append
    · exact List.forall_mem_singleton.mpr (hopens.trans hl)
    · exact List.forall_mem_singleton.mpr hl
    · intro text
      have hjoin : text ++ continued [l ++ bl] = text ++ continued [l] ++ bl := by simp [continued]
      rw [hjoin, parse_congr (trim_append_right h _)]

/-- How its last line ends makes no difference to the options that a text describes. -/
theorem map_parse_blocks_lines (cs : List Char) :
    (blocks (lines (cs ++ ['\n']))).map parse = (blocks (lines cs)).map parse := by
  obtain ⟨ls, last, hended, hopen⟩ := exists_last_line [] cs
  obtain ⟨bl, hbl, hlast⟩ := exists_eq_dropReturn_append last
  rw [lines, lines, hended, hopen]
  split
  · next hempty =>
    -- nothing stands behind the last line feed, so that one more makes an empty line
    obtain rfl := List.isEmpty_iff.mp hempty
    apply map_parse_blocks_append
    · decide
    · decide
    · intro text
      have hblank : AllBlank (continued [dropReturn []]) := by decide
      apply parse_congr
      rw [trim_append_right hblank, continued, List.flatMap_nil, List.append_nil]
  · have hline := map_parse_blocks_concat hbl ls (dropReturn last)
    rw [← hlast] at hline
    exact hline.symm

/-! ## The words behind an option line -/

/-- The words in front of the double space of an option line, or all its words if it has none. -/
def headWords (l : List Char) : List (List Char) := specWords (sections (trimStart l)).1

/-- The words of the following lines that are read as if they stood on the option line. If that line has no
double space of its own, these are the words up to the first one behind it. -/
def strays (l : List Char) (following : List (List Char)) : List (List Char) :=
  match cut? doubleSpace (trimStart l) with
  | some _ => []
  | none => specWords (sections (continued (continuation following))).1

/-- The prose that belongs to an option line: what is left of the line behind its double space, and the
lines that continue it; without a double space on the line, what is behind the first one in those. -/
def prose (l : List Char) (following : List (List Char)) : List Char :=
  match cut? doubleSpace (trimStart l) with
  | some (_, rest) => rest ++ continued (continuation following)
  | none => (sections (continued (continuation following))).2

theorem head?_continued (ls : List (List Char)) :
    (continued ls).head? = none ∨ (continued ls).head? = some '\n' := by
  cases ls with
  | nil => exact Or.inl rfl
  | cons l ls => exact Or.inr rfl

theorem breaks_sections_continued (ls : List (List Char)) : Breaks (sections (continued ls)).1 := by
  intro c hc
  have hhead : (continued ls).head? = some c := by
    cases hcut : cut? doubleSpace (continued ls) with
    | none => rwa [sections_of_eq_none hcut] at hc
    | some parts =>
      rw [sections_of_eq_some hcut] at hc
      rw [cut?_append hcut, List.append_assoc, List.head?_append, hc]
      rfl
  rcases head?_continued ls with hnone | hnewline
  · rw [hnone] at hhead
    cases hhead
  · rw [hnewline] at hhead
    rw [← Option.some.inj hhead]
    decide

/-- What is read from the block of an option line. -/
theorem parse_block (hl : opensBlock l = true) (ls : List (List Char)) :
    parse (trimStart l ++ continued (continuation ls)) =
      describe (headWords l ++ strays l ls) (default? (prose l ls)) := by
  have hstart : trimStart (trimStart l ++ continued (continuation ls)) =
      trimStart l ++ continued (continuation ls) := by
    apply trimStart_eq_self
    intro c hc
    rw [opensBlock, beq_iff_eq] at hl
    rw [List.head?_append, hl] at hc
    rw [← Option.some.inj hc]
    decide
  rw [parse_eq_describe, hstart]
  unfold headWords strays prose
  cases hcut : cut? doubleSpace (trimStart l) with
  | some parts =>
    rw [sections_of_eq_some (cut?_append_of_eq_some hcut _), sections_of_eq_some hcut, List.append_nil]
  | none =>
    have hborder : (continued (continuation ls)).head? ≠ some ' ' := by
      rcases head?_continued (continuation ls) with hhead | hhead <;> rw [hhead] <;> decide
    rw [sections_append_of_eq_none hcut (Or.inr hborder), sections_of_eq_none hcut,
      specWords_append (breaks_map_unpunctuate (breaks_sections_continued _))]

end Description

namespace Registry

/-- **An option line says what its option is.** A help text has as many options as it has option lines. Of
each, names and arity come from the words in front of the double space of its line, and from strays if
there are any; the default comes from the prose. If there are no strays, then the lines that continue the
description make no difference but to the value: the option is the one that the option line describes by
itself, with a default of its own. -/
theorem ofHelp_lines (help : String) :
    (ofHelp help).length = ((lines help.toList).filter opensBlock).length ∧
    ∀ before l following, lines help.toList = before ++ l :: following → opensBlock l = true →
      ∃ o, (ofHelp help)[(before.filter opensBlock).length]? = some o ∧
        o = describe (headWords l ++ strays l following) (default? (prose l following)) ∧
        (strays l following = [] → o = (Description.parse l).given o.value) := by
  constructor
  · rw [ofHelp, List.length_map, length_blocks]
  · intro before l following hlines hl
    refine ⟨_, ?_, rfl, ?_⟩
    · rw [ofHelp, hlines, blocks_append hl, ← length_blocks, List.map_append,
        List.getElem?_append_right (by rw [List.length_map]), List.length_map, Nat.sub_self,
        blocks_cons_of_opens hl, List.map_cons, List.getElem?_cons_zero, parse_block hl]
    · intro hnone
      rw [hnone, List.append_nil, parse_eq_describe]
      exact describe_eq_given ..

/-- The second option line has no double space, and the line behind it starts with one; so the word of that
line is no stray. -/
theorem ofHelp_lines_sample :
    let help := "Usage\n -s KN  Speed\n  [default: 10].\n -v\n  Loud."
    let before := ["Usage".toList, " -s KN  Speed".toList, "  [default: 10].".toList]
    let following := ["  Loud.".toList]
    lines help.toList = before ++ " -v".toList :: following ∧ opensBlock " -v".toList = true ∧
      strays " -v".toList following = [] ∧
      (ofHelp help).length = 2 ∧
      ∃ o, (ofHelp help)[1]? = some o ∧ o = (Description.parse " -v".toList).given o.value := by
  intro help before following
  have hlines : lines help.toList = before ++ " -v".toList :: following := by decide
  have hopens : opensBlock " -v".toList = true := by decide
  have hstrays : strays " -v".toList following = [] := by decide
  obtain ⟨hlength, hline⟩ := ofHelp_lines help
  obtain ⟨o, ho, -, hgiven⟩ := hline before _ following hlines hopens
  exact ⟨hlines, hopens, hstrays, hlength.trans (by decide), o, ho, hgiven hstrays⟩

/-- The only option line has one name and no value. Since it has no double space, the words of the line
behind it are strays: they give the option a second name, and a value. -/
theorem ofHelp_takes_strays :
    let help := "-q\nsee --all"
    let o : Opt := ⟨some "-q", some "--all", 1, .bool false⟩
    lines help.toList = ["-q".toList, "see --all".toList] ∧
      (lines help.toList).filter opensBlock = ["-q".toList] ∧
      Description.parse "-q".toList = ⟨some "-q", none, 0, .bool false⟩ ∧
      ofHelp help = [o] ∧ o ≠ (Description.parse "-q".toList).given o.value := by
  decide

/-- **Texts with options can be put together.** The options of two texts with a line feed between them, of
which the second starts with an option line, are those of the first and then those of the second. It does
not matter if the first text is empty, is prose, or ends within a description, nor how its lines end. -/
theorem ofHelp_append {help more : String} {l : List Char}
    (hfirst : (lines more.toList).head? = some l) (hl : opensBlock l = true) :
    ofHelp (help ++ "\n" ++ more) = ofHelp help ++ ofHelp more := by
  obtain ⟨ls, hlines⟩ : ∃ ls, lines more.toList = l :: ls := List.head?_eq_some_iff.mp hfirst
  have htext : (help ++ "\n" ++ more).toList = help.toList ++ '\n' :: more.toList := by
    rw [String.toList_append, String.toList_append, List.append_assoc]
    rfl
  calc ofHelp (help ++ "\n" ++ more)
      = (blocks (lines (help.toList ++ ['\n']) ++ l :: ls)).map Description.parse := by
        rw [ofHelp, htext, lines_append_newline, hlines]
    _ = (blocks (lines (help.toList ++ ['\n']))).map Description.parse ++ ofHelp more := by
        rw [blocks_append hl, List.map_append, ofHelp, hlines]
    _ = ofHelp help ++ ofHelp more := by
        rw [map_parse_blocks_lines]
        rfl

/-- The first text ends within a description, in a carriage return to which the line feed is added; the
second has a carriage return in each line ending. -/
theorem ofHelp_append_sample :
    let help := "-s KN  Speed\r\n  [default: 10]\r"
    let more := " -v  Loud\r\n--all\r\n"
    (lines more.toList).head? = some " -v  Loud".toList ∧ opensBlock " -v  Loud".toList = true ∧
      ofHelp (help ++ "\n" ++ more) = ofHelp help ++ ofHelp more ∧
      ofHelp help = [⟨some "-s", none, 1, .str "10"⟩] ∧
      ofHelp more = [.ofShort "-v", .ofLong "--all" 0] := by
  intro help more
  have hfirst : (lines more.toList).head? = some " -v  Loud".toList := by decide
  have hl : opensBlock " -v  Loud".toList = true := by decide
  exact ⟨hfirst, hl, ofHelp_append hfirst hl, by decide, by decide⟩

end Registry

end Synopsis
