import Synopsis.Proofs.Headers

/-!
# The lines of a usage section

A usage section is a header and lines, each with the name of the program in front of what the line says
(`layOut`). Its formal pattern should be the words of the lines with a bar between one line and the next
(`barred`), however the lines are laid out.

The header is found by its characters and dropped as a word. The two agree only where a blank stands behind
the header: without one, the name of the program is dropped with the header, and the first word of the first
line is taken for it. `formal_layOut_iff` says so for all headers, names and lines.
-/

namespace Synopsis.Usage

open Text

/-! ## Layouts -/

/-- One line of a usage section, without the name of the program. -/
structure UsageLine where
  /-- The blanks in front of the name. -/
  indent : List Char
  /-- What stands behind the name, after a space. -/
  body : List Char

/-- The line with the name of the program. -/
def UsageLine.text (program : List Char) (l : UsageLine) : List Char := l.indent ++ (program ++ ' ' :: l.body)

/-- A header, and lines each of which names the program. -/
def layOut (header program : List Char) (ls : List UsageLine) : List Char :=
  header ++ ['\n'].intercalate (ls.map (UsageLine.text program))

/-- The words of the lines, with a bar between one line and the next. -/
def barred (ls : List UsageLine) : List (List Char) := [['|']].intercalate (ls.map fun l => words l.body)

variable {header program : List Char} {first : UsageLine} {rest : List UsageLine}

theorem intercalate_cons {α : Type} (sep x : List α) (xs : List (List α)) :
    sep.intercalate (x :: xs) = x ++ xs.flatMap (sep ++ ·) := by
  induction xs generalizing x with
  | nil => simp
  | cons y ys ih => simp [List.intercalate_cons_cons, ih]

theorem barred_cons (first : UsageLine) (rest : List UsageLine) :
    barred (first :: rest) = words first.body ++ rest.flatMap fun l => ['|'] :: words l.body := by
  rw [barred, List.map_cons, intercalate_cons, List.flatMap_map]
  rfl

/-! ## Words of lines -/

theorem breaks_flatMap_blank {c : Char} (hc : isBlank c = true) (ts : List (List Char)) :
    Breaks (ts.flatMap ([c] ++ ·)) := by
  cases ts with
  | nil => exact fun d hd => absurd hd (by simp)
  | cons t ts => exact breaks_cons hc _

/-- Texts with a blank in front of each have their words one after the other. -/
theorem words_flatMap_blank {c : Char} (hc : isBlank c = true) (ts : List (List Char)) :
    words (ts.flatMap ([c] ++ ·)) = ts.flatMap words := by
  induction ts with
  | nil => rfl
  | cons t ts ih =>
    rw [List.flatMap_cons, List.flatMap_cons, words_append_of_breaks (breaks_flatMap_blank hc ts), ih,
      List.singleton_append, words_blank_cons hc]

/-- Words that are joined with spaces are found as they were. -/
theorem words_intercalate {ws : List (List Char)} (h : ∀ w ∈ ws, w ≠ [] ∧ Unbroken w) :
    words ([' '].intercalate ws) = ws := by
  have hspace : isBlank ' ' = true := by decide
  have hall : ws.flatMap words = ws := by
    calc ws.flatMap words = ws.flatMap fun w => [w] :=
          List.flatMap_congr fun w hw => words_unbroken (h w hw).1 (h w hw).2
      _ = ws := List.flatMap_singleton' ws
  cases ws with
  | nil => rfl
  | cons w ws =>
    rw [intercalate_cons, words_append_of_breaks (breaks_flatMap_blank hspace ws), words_flatMap_blank hspace]
    exact hall

theorem words_text {l : UsageLine} (h : AllBlank l.indent) (program : List Char) :
    words (l.text program) = words program ++ words l.body := by
  have hspace : isBlank ' ' = true := by decide
  rw [UsageLine.text, words_append_left h, words_append_of_breaks (breaks_cons hspace l.body),
    words_blank_cons hspace]

/-- The words behind the first mention of the program. -/
def lineWords (program : List Char) (first : UsageLine) (rest : List UsageLine) : List (List Char) :=
  words first.body ++ rest.flatMap fun l => words program ++ words l.body

/-- The text behind the first mention of the program starts with a blank, and its words are known. -/
theorem exists_layOut_eq (header program : List Char) (first : UsageLine)
    (hrest : ∀ l ∈ rest, AllBlank l.indent) :
    ∃ tail, layOut header program (first :: rest) = header ++ (first.indent ++ (program ++ tail)) ∧
      Breaks tail ∧ words tail = lineWords program first rest := by
  have hspace : isBlank ' ' = true := by decide
  have hnewline : isBlank '\n' = true := by decide
  refine ⟨' ' :: (first.body ++ (rest.map (UsageLine.text program)).flatMap (['\n'] ++ ·)), ?_,
    breaks_cons hspace _, ?_⟩
  · rw [layOut, List.map_cons, intercalate_cons, UsageLine.text]
    simp
  · rw [words_blank_cons hspace, words_append_of_breaks (breaks_flatMap_blank hnewline _),
      words_flatMap_blank hnewline, List.flatMap_map]
    exact congrArg (words first.body ++ ·) (List.flatMap_congr fun l hl => words_text (hrest l hl) program)

theorem words_layOut_of_blank (hheader : IsHeader header) (hfirst : AllBlank first.indent)
    (hrest : ∀ l ∈ rest, AllBlank l.indent) (hne : first.indent ≠ []) :
    words (layOut header program (first :: rest)) =
      header :: (words program ++ lineWords program first rest) := by
  obtain ⟨tail, htext, hbreaks, htail⟩ := exists_layOut_eq header program first hrest
  have hblank : Breaks (first.indent ++ (program ++ tail)) := by
    intro c hc
    rw [List.head?_append_of_ne_nil _ hne] at hc
    exact hfirst c (List.mem_of_head? hc)
  rw [htext, words_append_of_breaks hblank, words_unbroken hheader.ne_nil hheader.unbroken,
    words_append_left hfirst, words_append_of_breaks hbreaks, htail, List.singleton_append]

/-- Without a blank behind the header, the name of the program is part of the first word. -/
theorem words_layOut_of_no_blank (hheader : IsHeader header) (hprogram : Unbroken program)
    (hrest : ∀ l ∈ rest, AllBlank l.indent) (hnone : first.indent = []) :
    words (layOut header program (first :: rest)) = (header ++ program) :: lineWords program first rest := by
  obtain ⟨tail, htext, hbreaks, htail⟩ := exists_layOut_eq header program first hrest
  have hunbroken : Unbroken (header ++ program) := by
    intro c hc
    rcases List.mem_append.mp hc with hc | hc
    · exact hheader.unbroken c hc
    · exact hprogram c hc
  have hne : header ++ program ≠ [] := by simp [hheader.ne_nil]
  rw [htext, hnone, List.nil_append, ← List.append_assoc, words_append_of_breaks hbreaks,
    words_unbroken hne hunbroken, htail, List.singleton_append]

/-! ## The formal pattern -/

theorem length_formalWords (ws : List (List Char)) : (formalWords ws).length = ws.length - 2 := by
  unfold formalWords
  split
  · simp
  · next hshort =>
    match ws, hshort with
    | [], _ => rfl
    | [w], _ => rfl
    | v :: w :: ws, hshort => exact absurd rfl (hshort v w ws)

theorem mem_formalWords {ws : List (List Char)} {w : List Char} (h : w ∈ formalWords ws) :
    w = ['|'] ∨ w ∈ ws := by
  unfold formalWords at h
  split at h
  · obtain ⟨v, hv, rfl⟩ := List.mem_map.mp h
    split
    · exact Or.inl rfl
    · exact Or.inr (List.mem_cons_of_mem _ (List.mem_cons_of_mem _ hv))
  · cases h

/-- A formal pattern is known by its words. -/
theorem formal_eq_iff {usage : String} {ws : List (List Char)} (hws : ∀ w ∈ ws, w ≠ [] ∧ Unbroken w) :
    formal usage = " ".intercalate (ws.map String.ofList) ↔ formalWords (words usage.toList) = ws := by
  have hformal : ∀ w ∈ formalWords (words usage.toList), w ≠ [] ∧ Unbroken w := by
    intro w hw
    rcases mem_formalWords hw with rfl | hw
    · decide
    · exact mem_words hw
  have hjoin : ∀ vs : List (List Char),
      (" ".intercalate (vs.map String.ofList)).toList = [' '].intercalate vs := by
    intro vs
    rw [String.toList_intercalate, List.map_map]
    simp [Function.comp_def]
  constructor
  · intro heq
    rw [formal, ← String.toList_inj, hjoin, hjoin] at heq
    rw [← words_intercalate hformal, heq, words_intercalate hws]
  · intro heq
    rw [formal, heq]

theorem mem_barred {w : List Char} (h : w ∈ barred (first :: rest)) : w ≠ [] ∧ Unbroken w := by
  rw [barred_cons] at h
  rcases List.mem_append.mp h with h | h
  · exact mem_words h
  · obtain ⟨l, -, hw⟩ := List.mem_flatMap.mp h
    rcases List.mem_cons.mp hw with rfl | hw
    · decide
    · exact mem_words hw

theorem lineWords_eq (hne : program ≠ []) (hprogram : Unbroken program) (first : UsageLine)
    (rest : List UsageLine) :
    lineWords program first rest = words first.body ++ rest.flatMap fun l => program :: words l.body := by
  rw [lineWords, words_unbroken hne hprogram]
  rfl

/-- Where the program is not mentioned within a line, it is mentioned where a line starts. -/
theorem map_lineWords (hne : program ≠ []) (hprogram : Unbroken program)
    (hfresh : ∀ l ∈ first :: rest, program ∉ words l.body) :
    ((lineWords program first rest).map fun w => if w = program then ['|'] else w) =
      barred (first :: rest) := by
  have hbody : ∀ l ∈ first :: rest,
      ((words l.body).map fun w => if w = program then ['|'] else w) = words l.body := by
    intro l hl
    have hsame : ∀ w ∈ words l.body, (if w = program then ['|'] else w) = id w := by
      rintro w hw
      refine if_neg ?_
      rintro rfl
      exact hfresh l hl hw
    rw [List.map_congr_left hsame, List.map_id]
  rw [lineWords_eq hne hprogram, barred_cons, List.map_append, hbody first List.mem_cons_self,
    List.map_flatMap]
  refine congrArg (words first.body ++ ·) (List.flatMap_congr ?_)
  intro l hl
  rw [List.map_cons, if_pos rfl, hbody l (List.mem_cons_of_mem first hl)]

/-- A bar stands for each further line, and at most one mention of the program. -/
theorem length_lineWords_le (hprogram : Unbroken program) (first : UsageLine) (rest : List UsageLine) :
    (lineWords program first rest).length ≤ (barred (first :: rest)).length := by
  have hone : (words program).length ≤ 1 := by
    rw [words, wordsFrom_unbroken hprogram]
    cases program <;> simp
  rw [lineWords, barred_cons, List.length_append, List.length_append]
  refine Nat.add_le_add_left ?_ _
  induction rest with
  | nil => simp
  | cons l rest ih =>
    simp only [List.flatMap_cons, List.length_append, List.length_cons]
    omega

/-- **The header is dropped as a word.** Take any header, any name of a program without a blank, and lines
none of which has that name among its words. The formal pattern of the section is the words of the lines with a
bar between one line and the next, whatever the blanks, if and only if there is a blank behind the header and
the name is not empty; or else there is one line only, and it has no words. -/
theorem formal_layOut_iff (hheader : IsHeader header) (hprogram : Unbroken program)
    (hindent : ∀ l ∈ first :: rest, AllBlank l.indent)
    (hfresh : ∀ l ∈ first :: rest, program ∉ words l.body) :
    formal (String.ofList (layOut header program (first :: rest))) =
        " ".intercalate ((barred (first :: rest)).map String.ofList) ↔
      (first.indent ≠ [] ∧ program ≠ []) ∨ (rest = [] ∧ words first.body = []) := by
  have hfirst := hindent first List.mem_cons_self
  have hrest : ∀ l ∈ rest, AllBlank l.indent := fun l hl => hindent l (List.mem_cons_of_mem first hl)
  rw [formal_eq_iff fun w hw => mem_barred hw, String.toList_ofList]
  by_cases hnamed : first.indent ≠ [] ∧ program ≠ []
  · refine iff_of_true ?_ (Or.inl hnamed)
    rw [words_layOut_of_blank hheader hfirst hrest hnamed.1, words_unbroken hnamed.2 hprogram]
    exact map_lineWords hnamed.2 hprogram hfresh
  · -- one word is all that comes before the words of the lines
    obtain ⟨x, hx⟩ : ∃ x, words (layOut header program (first :: rest)) =
        x :: lineWords program first rest := by
      by_cases hnone : first.indent = []
      · exact ⟨_, words_layOut_of_no_blank hheader hprogram hrest hnone⟩
      · have hempty : program = [] := by
          by_contra hne
          exact hnamed ⟨hnone, hne⟩
        refine ⟨header, ?_⟩
        rw [words_layOut_of_blank hheader hfirst hrest hnone, hempty]
        rfl
    have hlength := length_formalWords (x :: lineWords program first rest)
    have hle := length_lineWords_le hprogram first rest
    rw [hx, or_iff_right hnamed]
    constructor
    · intro heq
      rw [heq, List.length_cons] at hlength
      have hnil : barred (first :: rest) = [] := List.length_eq_zero_iff.mp (by omega)
      rw [barred_cons, List.append_eq_nil_iff] at hnil
      refine ⟨?_, hnil.1⟩
      cases rest with
      | nil => rfl
      | cons l rest => exact absurd hnil.2 (by simp)
    · rintro ⟨rfl, hbody⟩
      rw [lineWords, barred_cons, hbody]
      rfl

/-- The header is on a line of its own, and the lines are indented in their own ways. -/
theorem formal_layOut_sample :
    let first : UsageLine := ⟨"\n  ".toList, "[-hv]\tARG ".toList⟩
    let rest : List UsageLine := [⟨" ".toList, "N  M".toList⟩, ⟨[], []⟩]
    IsHeader "uſage:".toList ∧ Unbroken "prog".toList ∧ (∀ l ∈ first :: rest, AllBlank l.indent) ∧
      (∀ l ∈ first :: rest, "prog".toList ∉ words l.body) ∧ first.indent ≠ [] ∧ "prog".toList ≠ [] ∧
      layOut "uſage:".toList "prog".toList (first :: rest) =
        "uſage:\n  prog [-hv]\tARG \n prog N  M\nprog ".toList ∧
      formal (String.ofList (layOut "uſage:".toList "prog".toList (first :: rest))) = "[-hv] ARG | N M |" := by
  intro first rest
  have hheader : IsHeader "uſage:".toList := by decide
  have hprogram : Unbroken "prog".toList := by decide
  have hindent : ∀ l ∈ first :: rest, AllBlank l.indent := by decide
  have hfresh : ∀ l ∈ first :: rest, "prog".toList ∉ words l.body := by decide
  have hnamed : first.indent ≠ [] ∧ "prog".toList ≠ [] := by decide
  refine ⟨hheader, hprogram, hindent, hfresh, hnamed.1, hnamed.2, by decide, ?_⟩
  rw [(formal_layOut_iff hheader hprogram hindent hfresh).mpr (Or.inl hnamed)]
  decide

/-- A section without a blank behind its header is found as it stands. Its formal pattern has lost the only
word of the only line, which was taken for the name of the program. -/
theorem formal_takes_word_for_program :
    let first : UsageLine := ⟨[], "ARG".toList⟩
    IsHeader "usage:".toList ∧ AllBlank first.indent ∧ Unbroken "prog".toList ∧
      "prog".toList ∉ words first.body ∧
      layOut "usage:".toList "prog".toList [first] = "usage:prog ARG".toList ∧
      sectionOf "usage:prog ARG" = .ok "usage:prog ARG" ∧
      " ".intercalate ((barred [first]).map String.ofList) = "ARG" ∧ formal "usage:prog ARG" = "" := by
  decide

end Synopsis.Usage
