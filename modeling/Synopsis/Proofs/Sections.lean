import Synopsis.Proofs.Headers

/-!
# The usage section of a help text

A help text has a usage section exactly if a header occurs in it once, and then the section is the text from
that header up to the first blank line, without the blanks at its end (`sectionOf_exact`). A section is a help
text of its own, and it stays the usage section of any text that it is put into, as long as there is no
header in what stands before and behind it and a blank line ends it.

What makes a text a section is said in `IsSection`: it starts with a header, has no other, no blank line, and
no blank at its end. Every section that is found is one, and one that is put into a text is found again
(`sectionOf_of_isSection`).
-/

namespace Synopsis.Usage

open Text

variable {a b cs h r s tail : List Char} {doc : String}

/-! ## Blank lines -/

/-- **`StartsBlankLine cs`**: the text starts with a line feed, any blanks, and a line feed. -/
def StartsBlankLine (cs : List Char) : Prop :=
  ∃ bl rest, AllBlank bl ∧ cs = '\n' :: (bl ++ '\n' :: rest)

/-- **`HasBlankLine cs`**: a blank line starts somewhere in the text. -/
def HasBlankLine (cs : List Char) : Prop := ∃ s, s <:+ cs ∧ StartsBlankLine s

theorem newline_mem_takeWhile_iff :
    '\n' ∈ cs.takeWhile isBlank ↔ ∃ bl rest, AllBlank bl ∧ cs = bl ++ '\n' :: rest := by
  constructor
  · intro hmem
    obtain ⟨bl, rest, hsplit⟩ := List.append_of_mem hmem
    refine ⟨bl, rest ++ cs.dropWhile isBlank, ?_, ?_⟩
    · intro c hc
      refine List.mem_takeWhile_imp (l := cs) ?_
      rw [hsplit]
      exact List.mem_append_left _ hc
    · conv_lhs => rw [← List.takeWhile_append_dropWhile (p := isBlank) (l := cs), hsplit]
      simp
  · rintro ⟨bl, rest, hbl, rfl⟩
    rw [List.takeWhile_append_of_pos hbl, List.takeWhile_cons_of_pos (by decide)]
    simp

theorem startsBlankLine_cons_iff {c : Char} :
    StartsBlankLine (c :: cs) ↔ c = '\n' ∧ '\n' ∈ cs.takeWhile isBlank := by
  rw [newline_mem_takeWhile_iff]
  constructor
  · rintro ⟨bl, rest, hbl, heq⟩
    obtain ⟨rfl, rfl⟩ := List.cons.inj heq
    exact ⟨rfl, bl, rest, hbl, rfl⟩
  · rintro ⟨rfl, bl, rest, hbl, rfl⟩
    exact ⟨bl, rest, hbl, rfl⟩

theorem not_startsBlankLine_nil : ¬ StartsBlankLine [] := by
  rintro ⟨bl, rest, -, heq⟩
  cases heq

theorem StartsBlankLine.append (h : StartsBlankLine cs) (ds : List Char) : StartsBlankLine (cs ++ ds) := by
  obtain ⟨bl, rest, hbl, rfl⟩ := h
  exact ⟨bl, rest ++ ds, hbl, by simp⟩

/-- A text whose last character is not blank cannot start a blank line that ends behind it. -/
theorem StartsBlankLine.of_append (hs : s ≠ []) (hlast : ∀ c, s.getLast? = some c → isBlank c = false)
    (h : StartsBlankLine (s ++ tail)) : StartsBlankLine s := by
  obtain ⟨bl, rest, hbl, heq⟩ := h
  obtain ⟨c, s, rfl⟩ := List.exists_cons_of_ne_nil hs
  obtain ⟨rfl, hs'⟩ := List.cons.inj heq
  have hsome : ¬ AllBlank s := by
    intro hblank
    have hend := hlast _ (List.getLast?_eq_some_getLast (List.cons_ne_nil '\n' s))
    rcases List.mem_cons.mp (List.getLast_mem (List.cons_ne_nil '\n' s)) with hnewline | hmem
    · rw [hnewline] at hend
      exact absurd hend (by decide)
    · rw [hblank _ hmem] at hend
      cases hend
  rcases List.append_eq_append_iff.mp hs' with ⟨more, rfl, -⟩ | ⟨more, rfl, hrest⟩
  · exact absurd (fun d hd => hbl d (List.mem_append_left more hd)) hsome
  · cases more with
    | nil =>
      rw [List.append_nil] at hsome
      exact absurd hbl hsome
    | cons d more =>
      obtain ⟨rfl, -⟩ := List.cons.inj hrest
      exact ⟨bl, more, hbl, rfl⟩

theorem untilBlankLine_of_starts (h : StartsBlankLine cs) : untilBlankLine cs = [] := by
  cases cs with
  | nil => rfl
  | cons c cs => rw [untilBlankLine, if_pos (startsBlankLine_cons_iff.mp h)]

theorem untilBlankLine_cons {c : Char} (h : ¬ StartsBlankLine (c :: cs)) :
    untilBlankLine (c :: cs) = c :: untilBlankLine cs := by
  rw [untilBlankLine, if_neg (mt startsBlankLine_cons_iff.mpr h)]

/-- Text in which no blank line starts is kept. -/
theorem untilBlankLine_append (h : ∀ s, s ≠ [] → s <:+ a → ¬ StartsBlankLine (s ++ b)) :
    untilBlankLine (a ++ b) = a ++ untilBlankLine b := by
  induction a with
  | nil => rfl
  | cons c a ih =>
    have hhere := h (c :: a) (List.cons_ne_nil c a) (List.suffix_refl _)
    rw [List.cons_append] at hhere
    rw [List.cons_append, untilBlankLine_cons hhere, ih]
    · rfl
    · intro s hs hsuffix
      exact h s hs (hsuffix.trans (List.suffix_cons c a))

/-- **`EndsAtBlankLine cs text after`**: the text `cs` is cut into `text` and `after` at its first blank line,
or at its end if it has none. -/
structure EndsAtBlankLine (cs text after : List Char) : Prop where
  whole : cs = text ++ after
  stop : after = [] ∨ StartsBlankLine after
  first : ∀ x y, cs = x ++ y → StartsBlankLine y → text.length ≤ x.length

theorem exists_endsAtBlankLine (cs : List Char) : ∃ after, EndsAtBlankLine cs (untilBlankLine cs) after := by
  induction cs with
  | nil => exact ⟨[], rfl, Or.inl rfl, fun _ _ _ _ => Nat.zero_le _⟩
  | cons c cs ih =>
    by_cases hhere : StartsBlankLine (c :: cs)
    · rw [untilBlankLine_of_starts hhere]
      exact ⟨c :: cs, rfl, Or.inr hhere, fun _ _ _ _ => Nat.zero_le _⟩
    · obtain ⟨after, hwhole, hstop, hfirst⟩ := ih
      rw [untilBlankLine_cons hhere]
      refine ⟨after, by rw [List.cons_append, ← hwhole], hstop, ?_⟩
      rintro (_ | ⟨d, x⟩) y hxy hy
      · rw [List.nil_append] at hxy
        exact absurd (hxy ▸ hy) hhere
      · exact Nat.succ_le_succ (hfirst x y (List.cons.inj hxy).2 hy)

/-! ## Sections -/

/-- **`IsSection r`**: what holds of a usage section by itself. -/
structure IsSection (r : List Char) : Prop where
  header : ∃ h rest, IsHeader h ∧ r = h ++ rest
  once : fromHeaders r = [r]
  noBlankLine : ¬ HasBlankLine r
  trimmed : ∀ c, r.getLast? = some c → isBlank c = false

theorem trimEnd_append_unbroken (hh : Unbroken h) (cs : List Char) :
    trimEnd (h ++ cs) = h ++ trimEnd cs := by
  have hreverse : h.reverse.dropWhile isBlank = h.reverse :=
    trimStart_eq_self fun c hc => hh c (List.mem_reverse.mp (List.mem_of_head? hc))
  rw [trimEnd, trimEnd, List.reverse_append, List.dropWhile_append]
  split
  · next hempty => rw [List.isEmpty_iff.mp hempty, hreverse, List.reverse_reverse]; simp
  · simp

theorem trimEnd_eq_self (hlast : ∀ c, r.getLast? = some c → isBlank c = false) : trimEnd r = r := by
  have hreverse : r.reverse.dropWhile isBlank = r.reverse :=
    trimStart_eq_self fun c hc => hlast c (by rwa [← List.head?_reverse])
  rw [trimEnd, hreverse, List.reverse_reverse]

theorem trimStart_header (hh : IsHeader h) (rest : List Char) : trimStart (h ++ rest) = h ++ rest := by
  apply trimStart_eq_self
  intro c hc
  rw [List.head?_append_of_ne_nil _ hh.ne_nil] at hc
  exact hh.unbroken c (List.mem_of_head? hc)

/-- No blank line starts in a header. -/
theorem untilBlankLine_header (hh : IsHeader h) (rest : List Char) :
    untilBlankLine (h ++ rest) = h ++ untilBlankLine rest := by
  refine untilBlankLine_append ?_
  rintro s hs hsuffix ⟨bl, more, -, heq⟩
  obtain ⟨c, s, rfl⟩ := List.exists_cons_of_ne_nil hs
  obtain ⟨rfl, -⟩ := List.cons.inj heq
  exact absurd (hh.unbroken '\n' (hsuffix.subset List.mem_cons_self)) (by decide)

/-- A section is found where there is one header. Only its end needs to be trimmed. -/
theorem sectionOf_eq_ok_iff {r : String} :
    sectionOf doc = .ok r ↔
      ∃ s, fromHeaders doc.toList = [s] ∧ r = String.ofList (trimEnd (untilBlankLine s)) := by
  have htrim : ∀ s, fromHeaders doc.toList = [s] → trim (untilBlankLine s) = trimEnd (untilBlankLine s) := by
    intro s hs
    obtain ⟨-, -, hstart⟩ := mem_fromHeaders.mp (hs ▸ List.mem_singleton_self s)
    obtain ⟨h, rest, hh, rfl⟩ := startsHeader_iff.mp hstart
    rw [trim, untilBlankLine_header hh, trimStart_header hh]
  rw [sectionOf]
  split
  · next hnone => simp [hnone]
  · next s hs =>
    rw [htrim s hs]
    constructor
    · intro hr
      exact ⟨s, hs, (Except.ok.inj hr).symm⟩
    · rintro ⟨t, ht, rfl⟩
      rw [hs] at ht
      rw [(List.cons.inj ht).1]
  · next hnone hsingle =>
    constructor
    · intro hr
      cases hr
    · rintro ⟨s, hs, -⟩
      exact absurd hs (hsingle s)

/-- If a header that occurs once is the start of a part of the text, it occurs once in that part. -/
theorem fromHeaders_excerpt (before after : List Char) (hr : startsHeader r = true)
    (h : fromHeaders (before ++ (r ++ after)) = [r ++ after]) : fromHeaders r = [r] := by
  refine fromHeaders_eq_singleton (mem_fromHeaders.mpr ⟨[], rfl, hr⟩) ?_
  intro t ht
  obtain ⟨x, rfl, hstart⟩ := mem_fromHeaders.mp ht
  obtain ⟨k, rest, hk, rfl⟩ := startsHeader_iff.mp hstart
  have hmem : k ++ rest ++ after ∈ fromHeaders (before ++ (x ++ (k ++ rest) ++ after)) := by
    refine mem_fromHeaders.mpr ⟨before ++ x, by simp, ?_⟩
    rw [List.append_assoc]
    exact hk.startsHeader _
  rw [h, List.mem_singleton] at hmem
  exact List.append_cancel_right hmem

/-- What is found is a section. -/
theorem isSection_of_eq_ok {r : String} (hok : sectionOf doc = .ok r) : IsSection r.toList := by
  obtain ⟨s, hs, rfl⟩ := sectionOf_eq_ok_iff.mp hok
  rw [String.toList_ofList]
  obtain ⟨before, hdoc, hstart⟩ := mem_fromHeaders.mp (hs ▸ List.mem_singleton_self s)
  obtain ⟨after, hwhole, -, hfirst⟩ := exists_endsAtBlankLine s
  obtain ⟨bl, -, htrim⟩ := exists_eq_trimEnd_append (untilBlankLine s)
  have hheader : ∃ h rest, IsHeader h ∧ trimEnd (untilBlankLine s) = h ++ rest := by
    obtain ⟨h, rest, hh, rfl⟩ := startsHeader_iff.mp hstart
    exact ⟨h, trimEnd (untilBlankLine rest), hh,
      by rw [untilBlankLine_header hh, trimEnd_append_unbroken hh.unbroken]⟩
  have hexcerpt : s = trimEnd (untilBlankLine s) ++ (bl ++ after) := by
    rw [← List.append_assoc, ← htrim, ← hwhole]
  refine ⟨hheader, ?_, ?_, fun c hc => getLast?_trimEnd hc⟩
  · refine fromHeaders_excerpt before (bl ++ after) (startsHeader_iff.mpr hheader) ?_
    rw [← hexcerpt, ← hdoc, hs]
  · rintro ⟨y, ⟨x, hxy⟩, hy⟩
    have hlength := hfirst x (y ++ (bl ++ after)) (by rw [← List.append_assoc, hxy, ← hexcerpt])
      (hy.append _)
    have hne : y ≠ [] := by
      rintro rfl
      exact not_startsBlankLine_nil hy
    have hpos := List.length_pos_iff.mpr hne
    have hlong := congrArg List.length htrim
    rw [← hxy] at hlong
    simp only [List.length_append] at hlong
    omega

/-- A section is found again in a text without other headers, if nothing or a blank line is behind it. -/
theorem sectionOf_of_isSection (hr : IsSection r) {before : List Char} (hbefore : HeaderFree before)
    (hfree : HeaderFree tail) (hborder : ∀ c, tail.head? = some c → ∀ form ∈ headerForms.tail, c ∉ form)
    (hstop : tail = [] ∨ StartsBlankLine tail) :
    sectionOf (String.ofList (before ++ (r ++ tail))) = .ok (String.ofList r) := by
  obtain ⟨⟨h, rest, hh, hheader⟩, honce, hblank, hlast⟩ := hr
  have hfound : fromHeaders (before ++ (r ++ tail)) = [r ++ tail] := by
    have hstart : ∀ c, (r ++ tail).head? = some c → ∀ form ∈ headerForms.tail, c ∉ form := by
      rw [hheader, List.append_assoc]
      exact hh.head_notMem (rest ++ tail)
    rw [fromHeaders_append hstart, fromHeaders_append hborder, fromHeaders_eq_nil_iff.mpr hbefore,
      fromHeaders_eq_nil_iff.mpr hfree, honce]
    rfl
  have hkept : untilBlankLine (r ++ tail) = r := by
    rw [untilBlankLine_append]
    · rcases hstop with rfl | hstarts
      · exact List.append_nil r
      · rw [untilBlankLine_of_starts hstarts, List.append_nil]
    · intro s hs hsuffix hstarts
      obtain ⟨x, rfl⟩ := hsuffix
      refine hblank ⟨s, List.suffix_append x s, hstarts.of_append hs ?_⟩
      intro c hc
      exact hlast c (by rwa [List.getLast?_append_of_ne_nil x hs])
  rw [sectionOf_eq_ok_iff]
  refine ⟨r ++ tail, by rw [String.toList_ofList, hfound], ?_⟩
  rw [hkept, trimEnd_eq_self hlast]

/-- **`ExtractedFrom doc r`**: `r` is the part of the text from a header up to the first blank line behind it,
or up to the end, less the blanks at the end of that part. -/
def ExtractedFrom (doc r : List Char) : Prop :=
  ∃ before s text after bl, HeaderBehind before doc ∧ doc = before ++ s ∧ EndsAtBlankLine s text after ∧
    text = r ++ bl ∧ AllBlank bl ∧ ∀ c, r.getLast? = some c → isBlank c = false

theorem extractedFrom_of_eq_ok {r : String} (hok : sectionOf doc = .ok r) :
    ExtractedFrom doc.toList r.toList := by
  obtain ⟨s, hs, rfl⟩ := sectionOf_eq_ok_iff.mp hok
  have hmem : s ∈ fromHeaders doc.toList := hs ▸ List.mem_singleton_self s
  obtain ⟨before, hdoc, -⟩ := mem_fromHeaders.mp hmem
  obtain ⟨after, hafter⟩ := exists_endsAtBlankLine s
  obtain ⟨bl, hbl, htrim⟩ := exists_eq_trimEnd_append (untilBlankLine s)
  rw [String.toList_ofList]
  exact ⟨before, s, untilBlankLine s, after, bl, headerBehind_iff.mpr ⟨s, hmem, hdoc⟩, hdoc, hafter, htrim,
    hbl, fun c hc => getLast?_trimEnd hc⟩

theorem headerFree_nil : HeaderFree [] := fromHeaders_eq_nil_iff.mp rfl

/-- **The usage section is found exactly.** There is one if and only if a header occurs once in the help text,
and it goes from there to the first blank line or to the end, less the blanks at its end. It starts with the
header and has no blank line in it. It is its own usage section, and the usage section of each text that has
it between two texts without a header, with a blank line in front of the second. -/
theorem sectionOf_exact (doc : String) :
    ((∃ r, sectionOf doc = .ok r) ↔ ∃! before, HeaderBehind before doc.toList) ∧
    ∀ r, sectionOf doc = .ok r →
      ExtractedFrom doc.toList r.toList ∧
      (∃ h rest, IsHeader h ∧ r.toList = h ++ rest) ∧
      ¬ HasBlankLine r.toList ∧
      sectionOf r = .ok r ∧
      ∀ pre post : String, HeaderFree pre.toList → HeaderFree post.toList →
        sectionOf (pre ++ r ++ "\n\n" ++ post) = .ok r := by
  constructor
  · rw [← exists_fromHeaders_eq_singleton_iff]
    simp only [sectionOf_eq_ok_iff]
    constructor
    · rintro ⟨r, s, hs, -⟩
      exact ⟨s, hs⟩
    · rintro ⟨s, hs⟩
      exact ⟨_, s, hs, rfl⟩
  · intro r hok
    have hr := isSection_of_eq_ok hok
    refine ⟨extractedFrom_of_eq_ok hok, hr.header, hr.noBlankLine, ?_, ?_⟩
    · have hagain := sectionOf_of_isSection hr headerFree_nil headerFree_nil (by simp) (Or.inl rfl)
      rwa [List.nil_append, List.append_nil, String.ofList_toList] at hagain
    · intro pre post hpre hpost
      have htext : pre ++ r ++ "\n\n" ++ post =
          String.ofList (pre.toList ++ (r.toList ++ '\n' :: '\n' :: post.toList)) := by
        rw [← String.toList_inj]
        simp [List.append_assoc]
      have htail : HeaderFree ('\n' :: '\n' :: post.toList) := by
        rw [← fromHeaders_eq_nil_iff] at hpost ⊢
        exact hpost
      have hborder : ∀ form ∈ headerForms.tail, '\n' ∉ form := by decide
      have hpasted := sectionOf_of_isSection hr hpre htail
        (fun c hc => Option.some.inj hc ▸ hborder) (Or.inr ⟨[], post.toList, by simp [AllBlank], rfl⟩)
      rw [htext, hpasted, String.ofList_toList]

/-- The blank line is a carriage return and an em space; the section has blanks in front of it, and the header a
long s. The text in front of the second place starts like a header that breaks off. -/
theorem sectionOf_exact_sample :
    let doc := "A tool.\n\nuſAGE: t [-q]\n  t N \t\n\r\u2003\n -q  Quiet"
    let r := "uſAGE: t [-q]\n  t N"
    sectionOf doc = .ok r ∧ HeaderFree "See usage".toList ∧ HeaderFree "age: 3".toList ∧
      (∃! before, HeaderBehind before doc.toList) ∧ ExtractedFrom doc.toList r.toList ∧
      (∃ h rest, IsHeader h ∧ r.toList = h ++ rest) ∧ ¬ HasBlankLine r.toList ∧ sectionOf r = .ok r ∧
      sectionOf ("See usage" ++ r ++ "\n\n" ++ "age: 3") = .ok r := by
  intro doc r
  have hok : sectionOf doc = .ok r := by decide
  have hpre : HeaderFree "See usage".toList := fromHeaders_eq_nil_iff.mp (by decide)
  have hpost : HeaderFree "age: 3".toList := fromHeaders_eq_nil_iff.mp (by decide)
  obtain ⟨hiff, hsection⟩ := sectionOf_exact doc
  obtain ⟨hfrom, hheader, hblank, hagain, hpasted⟩ := hsection r hok
  exact ⟨hok, hpre, hpost, hiff.mp ⟨r, hok⟩, hfrom, hheader, hblank, hagain, hpasted _ _ hpre hpost⟩

end Synopsis.Usage
