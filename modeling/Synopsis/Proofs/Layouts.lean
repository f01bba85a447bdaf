import Synopsis.Proofs.Describing

/-!
# Descriptions that say what they were written from

There are many ways to write one option down: its names in either order, with a space or a comma between
them, a place holder behind one name or behind both, any prose, any text behind the default, blanks around
it all. A `Layout` is such a way, and `Layout.print` writes an option down in it. Whatever the layout, the
option is read back from the description as it was, its default included (`Opt.ofDescription_print`).

What has to be shown is that each border is found where it was drawn. The words in front of the double
space are set apart by separators that make no double space (`Legible`); the default starts at the mark that
was written for it, even if its text has a mark of its own, and ends at the bracket that was written for
it, even if its text has brackets.
-/

namespace Synopsis

open Text Description

/-! ## Options that can be written down -/

/-- The text has no blank, no comma and no equal sign, so that it stays in one piece among the names. -/
def Plain (s : String) : Prop := ∀ c ∈ s.toList, isBlank c = false ∧ c ≠ ',' ∧ c ≠ '='

instance (s : String) : Decidable (Plain s) :=
  List.decidableBAll (fun c => isBlank c = false ∧ c ≠ ',' ∧ c ≠ '=') s.toList

/-- **`o.Describable`**: the option can be the subject of a description. -/
structure Opt.Describable (o : Opt) : Prop where
  /-- It has a name. -/
  named : o.short ≠ none ∨ o.long ≠ none
  /-- A short name is a dash and a text that does not start with one. -/
  short : ∀ s, o.short = some s → ∃ t, s = "-" ++ t ∧ t ≠ "" ∧ t.toList.head? ≠ some '-' ∧ Plain t
  /-- A long name is two dashes and a text. -/
  long : ∀ s, o.long = some s → ∃ t, s = "--" ++ t ∧ t ≠ "" ∧ Plain t
  /-- It takes a value or none. -/
  arity : o.arity = 0 ∨ o.arity = 1
  /-- It has no default, or takes a value and has a default on one line that does not start with a blank. -/
  value : o.value = .bool false ∨ o.arity = 1 ∧ ∃ v, o.value = .str v ∧ '\n' ∉ v.toList ∧
    ∀ c, v.toList.head? = some c → isBlank c = false

/-! ## Layouts -/

/-- What stands between a name and the place holder of its value. -/
inductive ValueJoint where
  | space
  | equal
  deriving DecidableEq, Repr

def ValueJoint.text : ValueJoint → String
  | space => " "
  | equal => "="

/-- What stands between two names. -/
inductive NameJoint where
  | space
  | comma
  deriving DecidableEq, Repr

def NameJoint.text : NameJoint → String
  | space => " "
  | comma => ", "

/-- A name, with a place holder for the value or without. -/
structure NameEntry where
  name : String
  value : Option (ValueJoint × String)

namespace NameEntry

/-- The entry as it is written. -/
def text (e : NameEntry) : String :=
  match e.value with
  | none => e.name
  | some (joint, word) => e.name ++ (joint.text ++ word)

/-- The words of the entry. -/
def words (e : NameEntry) : List (List Char) :=
  match e.value with
  | none => [e.name.toList]
  | some (_, word) => [e.name.toList, word.toList]

end NameEntry

/-- A way to write an option down. -/
structure Layout where
  /-- The long name comes before the short one. -/
  longFirst : Bool
  /-- What stands between the names, if there are two. -/
  between : NameJoint
  /-- The place holder behind the short name, if there is one. -/
  shortValue : Option (ValueJoint × String)
  /-- The place holder behind the long name, if there is one. -/
  longValue : Option (ValueJoint × String)
  /-- The blanks in front. -/
  lead : String
  /-- The prose between the double space and the default. -/
  prose : String
  /-- The text behind the default. -/
  tail : String
  /-- The blanks at the end. -/
  trail : String

namespace Layout

/-- The names of the option, in order. -/
def entries (y : Layout) (o : Opt) : List NameEntry :=
  let short := o.short.toList.map fun s => ⟨s, y.shortValue⟩
  let long := o.long.toList.map fun s => ⟨s, y.longValue⟩
  if y.longFirst then long ++ short else short ++ long

/-- The names as they are written. -/
def heading (y : Layout) (o : Opt) : String :=
  y.between.text.intercalate ((y.entries o).map NameEntry.text)

/-- The default as it is written; only a text is one. -/
def defaultText : Value → String
  | .str v => "[default: " ++ v ++ "]"
  | _ => ""

/-- The description of the option. -/
def print (y : Layout) (o : Opt) : String :=
  y.lead ++ y.heading o ++ "  " ++ y.prose ++ defaultText o.value ++ y.tail ++ y.trail

/-- The word can stand for a value: it is in one piece and cannot be taken for a name. -/
def IsPlaceholder (w : String) : Prop := w ≠ "" ∧ Plain w ∧ w.toList.head? ≠ some '-'

instance (w : String) : Decidable (IsPlaceholder w) :=
  inferInstanceAs (Decidable (w ≠ "" ∧ Plain w ∧ w.toList.head? ≠ some '-'))

/-- **`y.Fits o`**: the option can be written down in this way. -/
structure Fits (y : Layout) (o : Opt) : Prop where
  shortWord : ∀ joint w, y.shortValue = some (joint, w) → IsPlaceholder w
  longWord : ∀ joint w, y.longValue = some (joint, w) → IsPlaceholder w
  /-- A place holder stands behind a name exactly if the option takes a value. -/
  arity : o.arity = 1 ↔ (o.short ≠ none ∧ y.shortValue ≠ none) ∨ (o.long ≠ none ∧ y.longValue ≠ none)
  lead : AllBlank y.lead.toList
  /-- The prose has no mark of a default. -/
  prose : ¬ defaultMark <:+: y.prose.toList
  /-- The text behind the default has no closing bracket and is on the same line. -/
  tail : ']' ∉ y.tail.toList ∧ '\n' ∉ y.tail.toList
  trail : AllBlank y.trail.toList

end Layout

/-! ## Words that separators set apart -/

namespace Description

variable {cs ds sep : List Char} {vs ws : List (List Char)}

/-- **`Legible cs ws`**: the text has the words `ws` and no double space, and neither starts nor ends with a
blank. -/
structure Legible (cs : List Char) (ws : List (List Char)) : Prop where
  words : specWords cs = ws
  cut : cut? doubleSpace cs = none
  ne : cs ≠ []
  first : ∀ c, cs.head? = some c → isBlank c = false
  last : ∀ c, cs.getLast? = some c → isBlank c = false

/-- **`Separates sep`**: the text sets words apart and has no double space. -/
structure Separates (sep : List Char) : Prop where
  ne : sep ≠ []
  cut : cut? doubleSpace sep = none
  blank : AllBlank (sep.map unpunctuate)

theorem separates_valueJoint (joint : ValueJoint) : Separates joint.text.toList := by
  cases joint <;> exact ⟨by decide, by decide, by decide⟩

theorem separates_nameJoint (joint : NameJoint) : Separates joint.text.toList := by
  cases joint <;> exact ⟨by decide, by decide, by decide⟩

theorem legible_word {s : String} (hne : s ≠ "") (h : Plain s) : Legible s.toList [s.toList] := by
  have hne' : s.toList ≠ [] := fun hnil => hne (String.toList_eq_nil_iff.mp hnil)
  have hmap : s.toList.map unpunctuate = s.toList := by
    conv_rhs => rw [← List.map_id s.toList]
    apply List.map_congr_left
    intro c hc
    obtain ⟨-, hcomma, hequal⟩ := h c hc
    rw [unpunctuate, if_neg (by simp [hcomma, hequal]), id]
  constructor
  case words => rw [specWords, hmap, words_unbroken hne' fun c hc => (h c hc).1]
  case cut =>
    rw [cut?_eq_none_iff]
    intro hspace
    have hmem : ' ' ∈ s.toList := hspace.subset List.mem_cons_self
    exact absurd (h ' ' hmem).1 (by decide)
  case ne => exact hne'
  case first => exact fun c hc => (h c (List.mem_of_head? hc)).1
  case last => exact fun c hc => (h c (List.mem_of_getLast? hc)).1

/-- Two legible texts with a separator between them are one. -/
theorem Legible.join (hcs : Legible cs vs) (hsep : Separates sep) (hds : Legible ds ws) :
    Legible (cs ++ (sep ++ ds)) (vs ++ ws) := by
  have hspace : ∀ c, isBlank c = false → c ≠ ' ' := by
    rintro c hc rfl
    exact absurd hc (by decide)
  have hrest : cut? doubleSpace (sep ++ ds) = none := by
    have hborder : ds.head? ≠ some ' ' := fun hhead => hspace ' ' (hds.first ' ' hhead) rfl
    rw [cut?_doubleSpace_append hsep.cut (Or.inr hborder), hds.cut]
    rfl
  constructor
  case words =>
    have hbreaks : Breaks ((sep ++ ds).map unpunctuate) := by
      obtain ⟨c, sep, rfl⟩ := List.exists_cons_of_ne_nil hsep.ne
      exact breaks_cons (hsep.blank _ List.mem_cons_self) _
    have hsepWords : specWords (sep ++ ds) = specWords ds := by
      rw [specWords, List.map_append, words_append_left hsep.blank]
      rfl
    rw [specWords_append hbreaks, hsepWords, hcs.words, hds.words]
  case cut =>
    have hborder : cs.getLast? ≠ some ' ' := fun hlast => hspace ' ' (hcs.last ' ' hlast) rfl
    rw [cut?_doubleSpace_append hcs.cut (Or.inl hborder), hrest]
    rfl
  case ne => simp [hcs.ne]
  case first =>
    intro c hc
    rw [List.head?_append_of_ne_nil _ hcs.ne] at hc
    exact hcs.first c hc
  case last =>
    intro c hc
    rw [← List.append_assoc, List.getLast?_append_of_ne_nil _ hds.ne] at hc
    exact hds.last c hc

theorem legible_intercalate (hsep : Separates sep) {es : List NameEntry} (hne : es ≠ [])
    (h : ∀ e ∈ es, Legible e.text.toList e.words) :
    Legible (sep.intercalate (es.map fun e => e.text.toList)) (es.flatMap NameEntry.words) := by
  induction es with
  | nil => exact absurd rfl hne
  | cons e es ih =>
    obtain ⟨he, hes⟩ := List.forall_mem_cons.mp h
    cases es with
    | nil => simpa using he
    | cons f es =>
      have hrest := ih (List.cons_ne_nil f es) hes
      rw [List.map_cons, List.map_cons, List.intercalate_cons_cons, List.append_assoc, List.flatMap_cons]
      exact he.join hsep hrest

/-- The names and the prose of a description are on either side of its first double space. -/
theorem parse_of_legible {lead : List Char} (hlead : AllBlank lead) (h : Legible cs ws) (ds : List Char) :
    parse (lead ++ (cs ++ (doubleSpace ++ ds))) = describe ws (default? ds) := by
  have hstart : trimStart (lead ++ (cs ++ (doubleSpace ++ ds))) = cs ++ (doubleSpace ++ ds) := by
    rw [trimStart_append_left hlead]
    apply trimStart_eq_self
    intro c hc
    rw [List.head?_append_of_ne_nil _ h.ne] at hc
    exact h.first c hc
  have hborder : cs.getLast? ≠ some ' ' := by
    intro hlast
    exact absurd (h.last ' ' hlast) (by decide)
  have hcut : sections (doubleSpace ++ ds) = ([], ds) := rfl
  rw [parse_eq_describe, hstart, sections_append_of_eq_none h.cut (Or.inl hborder), hcut, List.append_nil,
    h.words]

theorem default?_of_defaultHere? {v : List Char} (h : defaultHere? cs = some v) : default? cs = some v := by
  cases cs with
  | nil => cases h
  | cons c cs => rw [default?, h, Option.some_or]

/-- A default is found whatever its text is, if it does not start with a blank: it goes to the last bracket of
its line. -/
theorem default?_written {prose v tail trail : List Char} (hprose : ¬ defaultMark <:+: prose)
    (hline : '\n' ∉ v) (hv : ∀ c, v.head? = some c → isBlank c = false)
    (htail : ']' ∉ tail ∧ '\n' ∉ tail) (htrail : AllBlank trail) :
    default? (prose ++ (defaultMark ++ ' ' :: (v ++ ']' :: (tail ++ trail)))) = some v := by
  have hfirst : trimStart (v ++ ']' :: (tail ++ trail)) = v ++ ']' :: tail ++ trail := by
    rw [← List.cons_append, ← List.append_assoc]
    apply trimStart_eq_self
    intro c hc
    cases v with
    | nil =>
      rw [← Option.some.inj hc]
      decide
    | cons d v => exact hv c hc
  have hwhole : ∀ c ∈ v ++ ']' :: tail, (c != '\n') = true := by
    intro c hc
    rw [bne_iff_ne]
    rintro rfl
    rcases List.mem_append.mp hc with hc | hc
    · exact hline hc
    · rcases List.mem_cons.mp hc with hc | hc
      · cases hc
      · exact htail.2 hc
  have hlast : ']' ∉ tail ++ trail.takeWhile (· != '\n') := by
    intro hmem
    rcases List.mem_append.mp hmem with hmem | hmem
    · exact htail.1 hmem
    · exact not_mem_of_allBlank (by decide) htrail ((List.takeWhile_prefix _).subset hmem)
  have hhere : defaultHere? (defaultMark ++ ' ' :: (v ++ ']' :: (tail ++ trail))) = some v := by
    rw [defaultHere?_mark, if_pos (by decide), hfirst, List.takeWhile_append_of_pos hwhole, List.append_assoc,
      List.cons_append, beforeLastBracket?_bracket hlast]
  have hmark : defaultMark = '[' :: defaultMark.tail := rfl
  rw [hmark, List.cons_append, default?_append_bracket hprose, ← List.cons_append, ← hmark,
    default?_of_defaultHere? hhere]

/-- No default is found where none was written, even if text behind the prose has a mark. -/
theorem default?_unwritten {prose rest : List Char} (hprose : ¬ defaultMark <:+: prose) (hrest : ']' ∉ rest) :
    default? (prose ++ rest) = none := by
  apply default?_eq_none
  intro before after heq hmem
  rw [← List.append_assoc, List.append_eq_append_iff] at heq
  rcases heq with ⟨more, -, hafter⟩ | ⟨more, hmark, -⟩
  · apply hrest
    rw [hafter]
    exact List.mem_append_right more hmem
  · exact hprose ⟨before, more, hmark.symm⟩

end Description

/-! ## The names are read back -/

theorem Plain.append {s t : String} (hs : Plain s) (ht : Plain t) : Plain (s ++ t) := by
  intro c hc
  rw [String.toList_append] at hc
  exact (List.mem_append.mp hc).elim (hs c) (ht c)

namespace Opt.Describable

variable {o : Opt} {s : String}

theorem shortName (ho : o.Describable) (h : o.short = some s) :
    s ≠ "" ∧ Plain s ∧ isShortName s.toList = true ∧ isLongName s.toList = false := by
  obtain ⟨t, rfl, hne, hdash, hplain⟩ := ho.short s h
  obtain ⟨c, cs, ht⟩ := List.exists_cons_of_ne_nil (fun hnil => hne (String.toList_eq_nil_iff.mp hnil))
  have hc : c ≠ '-' := by
    rw [ht] at hdash
    exact fun heq => hdash (by rw [heq]; rfl)
  have hchars : ("-" ++ t).toList = '-' :: c :: cs := by
    rw [String.toList_append, ht]
    rfl
  refine ⟨?_, Plain.append (by decide) hplain, ?_, ?_⟩
  · intro hempty
    rw [hempty] at hchars
    cases hchars
  · simp [isShortName, isLongName, hchars, List.isPrefixOf, hc.symm]
  · simp [isLongName, hchars, List.isPrefixOf, hc.symm]

theorem longName (ho : o.Describable) (h : o.long = some s) :
    s ≠ "" ∧ Plain s ∧ isShortName s.toList = false ∧ isLongName s.toList = true := by
  obtain ⟨t, rfl, -, hplain⟩ := ho.long s h
  have hchars : ("--" ++ t).toList = '-' :: '-' :: t.toList := String.toList_append
  refine ⟨?_, Plain.append (by decide) hplain, ?_, ?_⟩
  · intro hempty
    rw [hempty] at hchars
    cases hchars
  · simp [isShortName, isLongName, hchars, List.isPrefixOf]
  · simp [isLongName, hchars, List.isPrefixOf]

end Opt.Describable

namespace Layout

variable {o : Opt} {y : Layout}

theorem IsPlaceholder.not_name {w : String} (h : IsPlaceholder w) :
    isShortName w.toList = false ∧ isLongName w.toList = false := by
  obtain ⟨-, -, hdash⟩ := h
  have hlong : isLongName w.toList = false := by
    cases hw : w.toList with
    | nil => rfl
    | cons c cs =>
      rw [hw] at hdash
      have hc : '-' ≠ c := fun heq => hdash (by rw [← heq]; rfl)
      simp [isLongName, List.isPrefixOf, hc]
  exact ⟨by simp [isShortName, hdash], hlong⟩

theorem mem_entries {e : NameEntry} : e ∈ y.entries o ↔
    (∃ s, o.short = some s ∧ e = ⟨s, y.shortValue⟩) ∨ ∃ s, o.long = some s ∧ e = ⟨s, y.longValue⟩ := by
  unfold entries
  split <;> simp [eq_comm, or_comm]

theorem legible_entry {e : NameEntry} (hne : e.name ≠ "") (hname : Plain e.name)
    (hvalue : ∀ joint w, e.value = some (joint, w) → IsPlaceholder w) :
    Legible e.text.toList e.words := by
  obtain ⟨name, value⟩ := e
  cases value with
  | none => exact legible_word hne hname
  | some place =>
    obtain ⟨joint, w⟩ := place
    obtain ⟨hw, hplain, -⟩ := hvalue joint w rfl
    have htext : (NameEntry.mk name (some (joint, w))).text.toList =
        name.toList ++ (joint.text.toList ++ w.toList) := by
      rw [NameEntry.text, String.toList_append, String.toList_append]
    rw [htext]
    exact (legible_word hne hname).join (separates_valueJoint joint) (legible_word hw hplain)

/-- The names stand where they were written, in front of the double space. -/
theorem legible_heading (ho : o.Describable) (hy : y.Fits o) :
    Legible (y.heading o).toList ((y.entries o).flatMap NameEntry.words) := by
  have hne : y.entries o ≠ [] := by
    rcases ho.named with hshort | hlong
    · obtain ⟨s, hs⟩ := Option.ne_none_iff_exists'.mp hshort
      exact List.ne_nil_of_mem (mem_entries.mpr (Or.inl ⟨s, hs, rfl⟩))
    · obtain ⟨s, hs⟩ := Option.ne_none_iff_exists'.mp hlong
      exact List.ne_nil_of_mem (mem_entries.mpr (Or.inr ⟨s, hs, rfl⟩))
  have hentries : ∀ e ∈ y.entries o, Legible e.text.toList e.words := by
    intro e he
    rcases mem_entries.mp he with ⟨s, hs, rfl⟩ | ⟨s, hs, rfl⟩
    · obtain ⟨hne, hplain, -, -⟩ := ho.shortName hs
      exact legible_entry hne hplain hy.shortWord
    · obtain ⟨hne, hplain, -, -⟩ := ho.longName hs
      exact legible_entry hne hplain hy.longWord
  rw [heading, String.toList_intercalate, List.map_map]
  exact legible_intercalate (separates_nameJoint y.between) hne hentries

theorem Fits.isPlaceholder (hy : y.Fits o) {e : NameEntry} (he : e ∈ y.entries o) {joint : ValueJoint}
    {w : String} (hw : e.value = some (joint, w)) : IsPlaceholder w := by
  rcases mem_entries.mp he with ⟨s, -, rfl⟩ | ⟨s, -, rfl⟩
  · exact hy.shortWord joint w hw
  · exact hy.longWord joint w hw

/-- What place holders are not can be looked for among the names. -/
theorem filter_words (hy : y.Fits o) {p : List Char → Bool}
    (hp : ∀ w, IsPlaceholder w → p w.toList = false) :
    ((y.entries o).flatMap NameEntry.words).filter p =
      ((y.entries o).map fun e => e.name.toList).filter p := by
  have hentry : ∀ e ∈ y.entries o, e.words.filter p = [e.name.toList].filter p := by
    intro e he
    cases hvalue : e.value with
    | none => simp only [NameEntry.words, hvalue]
    | some place =>
      have hw := hp _ (hy.isPlaceholder he hvalue)
      simp only [NameEntry.words, hvalue, List.filter_cons, hw, List.filter_nil, Bool.false_eq_true, if_false]
  rw [List.filter_flatMap, List.map_eq_flatMap, List.filter_flatMap]
  exact List.flatMap_congr hentry

theorem filter_isShortName (ho : o.Describable) (hy : y.Fits o) :
    ((y.entries o).flatMap NameEntry.words).filter isShortName = o.short.toList.map String.toList := by
  rw [filter_words hy fun w hw => hw.not_name.1]
  have hshort : ∀ s, o.short = some s → isShortName s.toList = true := fun s hs => (ho.shortName hs).2.2.1
  have hlong : ∀ s, o.long = some s → isShortName s.toList = false := fun s hs => (ho.longName hs).2.2.1
  unfold entries
  cases hs : o.short <;> cases hl : o.long <;> cases y.longFirst <;> simp [hs, hl, hshort, hlong]

theorem filter_isLongName (ho : o.Describable) (hy : y.Fits o) :
    ((y.entries o).flatMap NameEntry.words).filter isLongName = o.long.toList.map String.toList := by
  rw [filter_words hy fun w hw => hw.not_name.2]
  have hshort : ∀ s, o.short = some s → isLongName s.toList = false := fun s hs => (ho.shortName hs).2.2.2
  have hlong : ∀ s, o.long = some s → isLongName s.toList = true := fun s hs => (ho.longName hs).2.2.2
  unfold entries
  cases hs : o.short <;> cases hl : o.long <;> cases y.longFirst <;> simp [hs, hl, hshort, hlong]

theorem Fits.arity_iff (hy : y.Fits o) : o.arity = 1 ↔ ∃ e ∈ y.entries o, e.value ≠ none := by
  rw [hy.arity]
  constructor
  · rintro (⟨hname, hvalue⟩ | ⟨hname, hvalue⟩)
    · obtain ⟨s, hs⟩ := Option.ne_none_iff_exists'.mp hname
      exact ⟨_, mem_entries.mpr (Or.inl ⟨s, hs, rfl⟩), hvalue⟩
    · obtain ⟨s, hs⟩ := Option.ne_none_iff_exists'.mp hname
      exact ⟨_, mem_entries.mpr (Or.inr ⟨s, hs, rfl⟩), hvalue⟩
  · rintro ⟨e, he, hvalue⟩
    rcases mem_entries.mp he with ⟨s, hs, rfl⟩ | ⟨s, hs, rfl⟩
    · exact Or.inl ⟨by rw [hs]; exact Option.some_ne_none s, hvalue⟩
    · exact Or.inr ⟨by rw [hs]; exact Option.some_ne_none s, hvalue⟩

/-- The words of an entry are names up to its place holder. -/
theorem all_isName_words (ho : o.Describable) (hy : y.Fits o) {e : NameEntry} (he : e ∈ y.entries o) :
    (e.words.all fun w => isLongName w || isShortName w) = e.value.isNone := by
  have hname : (isLongName e.name.toList || isShortName e.name.toList) = true := by
    rcases mem_entries.mp he with ⟨s, hs, rfl⟩ | ⟨s, hs, rfl⟩
    · simp [(ho.shortName hs).2.2.1]
    · simp [(ho.longName hs).2.2.2]
  cases hvalue : e.value with
  | none => simp [NameEntry.words, hvalue, hname]
  | some place =>
    obtain ⟨hshort, hlong⟩ := (hy.isPlaceholder he hvalue).not_name
    simp [NameEntry.words, hvalue, hshort, hlong]

/-- Some word is no name exactly if a place holder was written. -/
theorem arityOf_words (ho : o.Describable) (hy : y.Fits o) :
    arityOf ((y.entries o).flatMap NameEntry.words) = o.arity := by
  unfold arityOf
  split
  · next hall =>
    rw [List.all_flatMap, List.all_eq_true] at hall
    have hnone : o.arity ≠ 1 := by
      intro hone
      obtain ⟨e, he, hvalue⟩ := hy.arity_iff.mp hone
      exact hvalue (Option.isNone_iff_eq_none.mp (all_isName_words ho hy he ▸ hall e he))
    exact (ho.arity.resolve_right hnone).symm
  · next hall =>
    rw [List.all_flatMap, List.all_eq_true] at hall
    push Not at hall
    obtain ⟨e, he, hvalue⟩ := hall
    refine (hy.arity_iff.mpr ⟨e, he, ?_⟩).symm
    intro hnone
    rw [all_isName_words ho hy he, hnone] at hvalue
    exact hvalue rfl

/-- The default is found as it was written, and none where none was. -/
theorem default?_print (ho : o.Describable) (hy : y.Fits o) :
    default? (y.prose ++ defaultText o.value ++ y.tail ++ y.trail).toList =
      o.value.str?.map String.toList := by
  have htrail : ']' ∉ y.trail.toList := not_mem_of_allBlank (by decide) hy.trail
  rcases ho.value with hvalue | ⟨-, v, hvalue, hline, hv⟩
  · have htext : (y.prose ++ defaultText o.value ++ y.tail ++ y.trail).toList =
        y.prose.toList ++ (y.tail.toList ++ y.trail.toList) := by
      simp [hvalue, defaultText, String.toList_append]
    have hrest : ']' ∉ y.tail.toList ++ y.trail.toList := by
      rw [List.mem_append]
      exact fun hmem => hmem.elim hy.tail.1 htrail
    rw [htext, default?_unwritten hy.prose hrest, hvalue]
    rfl
  · have htext : (y.prose ++ defaultText o.value ++ y.tail ++ y.trail).toList = y.prose.toList ++
        (defaultMark ++ ' ' :: (v.toList ++ ']' :: (y.tail.toList ++ y.trail.toList))) := by
      have hopen : "[default: ".toList = defaultMark ++ [' '] := rfl
      have hclose : "]".toList = [']'] := rfl
      rw [hvalue, defaultText]
      simp only [String.toList_append, hopen, hclose, List.append_assoc, List.cons_append, List.nil_append]
    rw [htext, default?_written hy.prose hline hv hy.tail hy.trail, hvalue]
    rfl

end Layout

/-- An option whose names are the only ones, and whose default is the one found, is described. -/
theorem Description.describe_eq {o : Opt} {ws : List (List Char)}
    (hshort : ws.filter isShortName = o.short.toList.map String.toList)
    (hlong : ws.filter isLongName = o.long.toList.map String.toList) (harity : arityOf ws = o.arity)
    (hvalue : o.value = .bool false ∨ o.arity = 1 ∧ ∃ v, o.value = .str v) :
    describe ws (o.value.str?.map String.toList) = o := by
  have hname : ∀ name : Option String,
      (name.toList.map String.toList).getLast?.map String.ofList = name := by
    intro name
    cases name <;> simp
  obtain ⟨short, long, arity, value⟩ := o
  simp only at hshort hlong harity hvalue ⊢
  rcases hvalue with rfl | ⟨rfl, v, rfl⟩
  · simp only [describe, hshort, hlong, harity, hname, Value.str?, Option.map_none]
  · simp only [describe, hshort, hlong, harity, hname, Value.str?, Option.map_some, String.ofList_toList]

/-- **An option is read back from any description of it.** Write an option down in any layout that fits it:
names in either order with a space or a comma between them, place holders behind one name or both if it
takes a value, two spaces, prose without the mark of a default, the default if it has one (its text may
have brackets and marks in it), more text on the same line without a closing bracket, blanks around it all.
The description describes that very option. -/
theorem Opt.ofDescription_print {o : Opt} {y : Layout} (ho : o.Describable) (hy : y.Fits o) :
    Opt.ofDescription (y.print o) = o := by
  have htext : (y.print o).toList = y.lead.toList ++ ((y.heading o).toList ++ (doubleSpace ++
      (y.prose ++ Layout.defaultText o.value ++ y.tail ++ y.trail).toList)) := by
    simp [Layout.print, String.toList_append]
  rw [Opt.ofDescription, htext, parse_of_legible hy.lead (Layout.legible_heading ho hy),
    Layout.default?_print ho hy]
  apply describe_eq
  · exact Layout.filter_isShortName ho hy
  · exact Layout.filter_isLongName ho hy
  · exact Layout.arityOf_words ho hy
  · rcases ho.value with hvalue | ⟨hone, v, hvalue, -, -⟩
    · exact Or.inl hvalue
    · exact Or.inr ⟨hone, v, hvalue⟩

/-- The long name comes first and has the only place holder; the prose runs over two lines, and both the
default and the text behind it have brackets of their own. -/
theorem Opt.ofDescription_print_sample :
    let o : Opt := ⟨some "-o", some "--output", 1, .str "x] [default: y"⟩
    let y : Layout := ⟨true, .comma, none, some (.equal, "FILE"), "\n ", "Where to\n[default]  write ",
      ", [see below", " \r\n"⟩
    o.Describable ∧ y.Fits o ∧
      y.print o = "\n --output=FILE, -o  Where to\n[default]  write " ++
        "[default: x] [default: y], [see below \r\n" ∧
      Opt.ofDescription (y.print o) = o := by
  intro o y
  have ho : o.Describable := by
    constructor
    case named => exact Or.inl (by decide)
    case short =>
      intro s hs
      exact ⟨"o", (Option.some.inj hs).symm, by decide, by decide, by decide⟩
    case long =>
      intro s hs
      exact ⟨"output", (Option.some.inj hs).symm, by decide, by decide⟩
    case arity => exact Or.inr rfl
    case value => exact Or.inr ⟨rfl, _, rfl, by decide, fun c hc => by cases hc; decide⟩
  have hy : y.Fits o := by
    constructor
    case shortWord =>
      intro joint w hw
      cases hw
    case longWord =>
      intro joint w hw
      cases hw
      decide
    case arity => decide
    case lead => decide
    case prose => decide
    case tail => decide
    case trail => decide
  exact ⟨ho, hy, by decide, ofDescription_print ho hy⟩

end Synopsis
