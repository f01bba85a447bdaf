import Mathlib.Data.List.Forall2
import Mathlib.Data.List.Infix
import Mathlib.Data.List.Nodup
import Synopsis.Proofs.Blanks
import Synopsis.Usage

/-!
# The header of a usage section

A header is the text `usage:` when the case of its letters is set aside (`IsHeader`). The reader has a table
of the characters that may stand at each place; the two agree (`startsHeader_iff`). What the reader gathers
is one rest of the text for each place where a header stands (`mem_fromHeaders`), so that there is a single
one exactly if a header occurs once (`exists_fromHeaders_eq_singleton_iff`).

The six characters of a header are all different. So no header runs over the border between two texts if
the second starts with a header, or with a character that is in none (`fromHeaders_append`).
-/

namespace Synopsis.Usage

open Text

variable {a b cs h s : List Char}

/-! ## Letters without their case -/

/-- The character in lower case. The long s is a lower-case form of the letter S that folds to the
usual one. -/
def foldCase (c : Char) : Char := if c = 'ſ' then 's' else c.toLower

/-- **`IsHeader h`**: the text reads `usage:`, in any mixture of cases. -/
def IsHeader (h : List Char) : Prop := h.map foldCase = "usage:".toList

instance (h : List Char) : Decidable (IsHeader h) :=
  inferInstanceAs (Decidable (h.map foldCase = "usage:".toList))

theorem toNat_toLower (c : Char) :
    c.toLower.toNat = if 65 ≤ c.toNat ∧ c.toNat ≤ 90 then c.toNat + 32 else c.toNat := by
  have hrange : (c.val ≥ 'A'.val ∧ c.val ≤ 'Z'.val) ↔ 65 ≤ c.toNat ∧ c.toNat ≤ 90 := by
    rw [ge_iff_le, UInt32.le_iff_toNat_le, UInt32.le_iff_toNat_le]
    rfl
  unfold Char.toLower
  simp only [hrange]
  split
  · next hupper =>
    have hle : c.val.toNat ≤ 90 := hupper.2
    show (c.val + 32).toNat = c.val.toNat + 32
    rw [UInt32.toNat_add]
    simp only [UInt32.reduceToNat]
    omega
  · rfl

theorem toNat_foldCase (c : Char) :
    (foldCase c).toNat =
      if c.toNat = 383 then 115
      else if 65 ≤ c.toNat ∧ c.toNat ≤ 90 then c.toNat + 32 else c.toNat := by
  have hlong : c = 'ſ' ↔ c.toNat = 383 := by
    rw [← Char.toNat_inj]
    rfl
  unfold foldCase
  simp only [hlong]
  split
  · rfl
  · exact toNat_toLower c

/-- The table of forms lists the characters that fold to each character of the header. -/
theorem forall₂_headerForms :
    List.Forall₂ (fun form x => ∀ c, c ∈ form ↔ foldCase c = x) headerForms "usage:".toList := by
  have htext : "usage:".toList = ['u', 's', 'a', 'g', 'e', ':'] := rfl
  rw [htext, headerForms]
  refine .cons ?_ (.cons ?_ (.cons ?_ (.cons ?_ (.cons ?_ (.cons ?_ .nil)))))
  all_goals
    intro c
    simp only [List.mem_cons, List.not_mem_nil, or_false, ← Char.toNat_inj, toNat_foldCase,
      Char.reduceToNat]
    split_ifs <;> omega

/-! ## Texts that start with a header -/

theorem startsWithForms_iff {forms : List (List Char)} {text : List Char}
    (hforms : List.Forall₂ (fun form x => ∀ c, c ∈ form ↔ foldCase c = x) forms text) (cs : List Char) :
    startsWithForms forms cs = true ↔ ∃ h rest, h.map foldCase = text ∧ cs = h ++ rest := by
  induction hforms generalizing cs with
  | nil =>
    refine ⟨fun _ => ⟨[], cs, rfl, rfl⟩, fun _ => ?_⟩
    rw [startsWithForms]
  | @cons form x forms text hform _ ih =>
    cases cs with
    | nil => simp [startsWithForms]
    | cons c cs =>
      rw [startsWithForms, Bool.and_eq_true, List.contains_iff_mem, hform, ih]
      constructor
      · rintro ⟨rfl, h, rest, rfl, rfl⟩
        exact ⟨c :: h, rest, rfl, rfl⟩
      · rintro ⟨_ | ⟨d, h⟩, rest, hfold, hcs⟩
        · cases hfold
        · obtain ⟨rfl, rfl⟩ := List.cons.inj hcs
          obtain ⟨rfl, rfl⟩ := List.cons.inj hfold
          exact ⟨rfl, h, rest, rfl, rfl⟩

theorem startsHeader_iff : startsHeader cs = true ↔ ∃ h rest, IsHeader h ∧ cs = h ++ rest :=
  startsWithForms_iff forall₂_headerForms cs

theorem IsHeader.startsHeader (hh : IsHeader h) (rest : List Char) : startsHeader (h ++ rest) = true :=
  startsHeader_iff.mpr ⟨h, rest, hh, rfl⟩

theorem IsHeader.ne_nil (hh : IsHeader h) : h ≠ [] := by
  rintro rfl
  exact absurd hh (by decide)

/-- Blanks have no case. -/
theorem foldCase_of_isBlank {c : Char} (hc : isBlank c = true) : foldCase c = c := by
  rw [isBlank, CharClass.contains_iff] at hc
  obtain ⟨range, hrange, hlow, hhigh⟩ := hc
  have hcase : ∀ range ∈ blanks, (range.2 < 65 ∨ 90 < range.1) ∧ (range.2 < 383 ∨ 383 < range.1) := by
    decide
  obtain ⟨hletter, hlong⟩ := hcase range hrange
  rw [← Char.toNat_inj, toNat_foldCase, if_neg (by omega), if_neg (by omega)]

theorem IsHeader.unbroken (hh : IsHeader h) : Unbroken h := by
  have htext : Unbroken "usage:".toList := by decide
  intro c hc
  cases hblank : isBlank c with
  | false => rfl
  | true =>
    have hmem : c ∈ "usage:".toList := by
      rw [← foldCase_of_isBlank hblank, ← hh]
      exact List.mem_map_of_mem hc
    exact hblank.symm.trans (htext c hmem)

/-! ## Places of headers -/

/-- **`HeaderBehind before cs`**: a header stands in the text right behind `before`. -/
def HeaderBehind (before cs : List Char) : Prop := ∃ h rest, IsHeader h ∧ cs = before ++ (h ++ rest)

/-- **`HeaderFree cs`**: no header stands anywhere in the text. -/
def HeaderFree (cs : List Char) : Prop := ∀ before, ¬ HeaderBehind before cs

theorem fromHeaders_eq_filter (cs : List Char) : fromHeaders cs = cs.tails.filter startsHeader := by
  induction cs with
  | nil => rfl
  | cons c cs ih => rw [fromHeaders, List.tails_cons, List.filter_cons, ih]

/-- There is a rest of the text for each place where a header stands. -/
theorem mem_fromHeaders : s ∈ fromHeaders cs ↔ ∃ before, cs = before ++ s ∧ startsHeader s = true := by
  rw [fromHeaders_eq_filter, List.mem_filter, List.mem_tails]
  constructor
  · rintro ⟨⟨before, hbefore⟩, hs⟩
    exact ⟨before, hbefore.symm, hs⟩
  · rintro ⟨before, hbefore, hs⟩
    exact ⟨⟨before, hbefore.symm⟩, hs⟩

theorem headerBehind_iff {before : List Char} :
    HeaderBehind before cs ↔ ∃ s ∈ fromHeaders cs, cs = before ++ s := by
  constructor
  · rintro ⟨h, rest, hh, hcs⟩
    exact ⟨h ++ rest, mem_fromHeaders.mpr ⟨before, hcs, hh.startsHeader rest⟩, hcs⟩
  · rintro ⟨s, hs, hcs⟩
    obtain ⟨-, -, hheader⟩ := mem_fromHeaders.mp hs
    obtain ⟨h, rest, hh, rfl⟩ := startsHeader_iff.mp hheader
    exact ⟨h, rest, hh, hcs⟩

theorem fromHeaders_eq_nil_iff : fromHeaders cs = [] ↔ HeaderFree cs := by
  rw [List.eq_nil_iff_forall_not_mem]
  constructor
  · intro hnone before hbehind
    obtain ⟨s, hs, -⟩ := headerBehind_iff.mp hbehind
    exact hnone s hs
  · intro hfree s hs
    obtain ⟨before, hcs, -⟩ := mem_fromHeaders.mp hs
    exact hfree before (headerBehind_iff.mpr ⟨s, hs, hcs⟩)

theorem nodup_fromHeaders (cs : List Char) : (fromHeaders cs).Nodup := by
  induction cs with
  | nil => exact List.nodup_nil
  | cons c cs ih =>
    rw [fromHeaders]
    split
    · refine List.nodup_cons.mpr ⟨?_, ih⟩
      intro hmem
      obtain ⟨before, hcs, -⟩ := mem_fromHeaders.mp hmem
      have hlength := congrArg List.length hcs
      simp only [List.length_append, List.length_cons] at hlength
      omega
    · exact ih

theorem fromHeaders_eq_singleton (hs : s ∈ fromHeaders cs) (hall : ∀ t ∈ fromHeaders cs, t = s) :
    fromHeaders cs = [s] := by
  by_contra hne
  rcases ((nodup_fromHeaders cs).ne_singleton_iff s).mp hne with hnil | ⟨t, ht, hts⟩
  · rw [hnil] at hs
    cases hs
  · exact hts (hall t ht)

/-- One rest is gathered exactly if a header occurs once. -/
theorem exists_fromHeaders_eq_singleton_iff :
    (∃ s, fromHeaders cs = [s]) ↔ ∃! before, HeaderBehind before cs := by
  constructor
  · rintro ⟨s, hs⟩
    obtain ⟨before, hcs, -⟩ := mem_fromHeaders.mp (hs ▸ List.mem_singleton_self s)
    refine ⟨before, headerBehind_iff.mpr ⟨s, hs ▸ List.mem_singleton_self s, hcs⟩, ?_⟩
    intro other hother
    obtain ⟨t, ht, hcs'⟩ := headerBehind_iff.mp hother
    rw [hs, List.mem_singleton] at ht
    rw [ht, hcs] at hcs'
    exact (List.append_cancel_right hcs').symm
  · rintro ⟨before, hbehind, hunique⟩
    obtain ⟨s, hs, hcs⟩ := headerBehind_iff.mp hbehind
    refine ⟨s, fromHeaders_eq_singleton hs ?_⟩
    intro t ht
    obtain ⟨other, hcs', -⟩ := mem_fromHeaders.mp ht
    have hother : other = before := hunique other (headerBehind_iff.mpr ⟨t, ht, hcs'⟩)
    rw [hother, hcs] at hcs'
    exact (List.append_cancel_left hcs').symm

/-! ## Two texts, one behind the other -/

/-- What starts in the first of two texts and does not go on in the second is all in the first. -/
theorem startsWithForms_of_append {forms : List (List Char)} (hs : s ≠ [])
    (hb : ∀ c, b.head? = some c → ∀ form ∈ forms.tail, c ∉ form)
    (h : startsWithForms forms (s ++ b) = true) : startsWithForms forms s = true := by
  induction forms generalizing s with
  | nil => cases s <;> rfl
  | cons form forms ih =>
    obtain ⟨c, s, rfl⟩ := List.exists_cons_of_ne_nil hs
    rw [List.cons_append, startsWithForms, Bool.and_eq_true] at h
    rw [startsWithForms, h.1, Bool.true_and]
    by_cases hnil : s = []
    · subst hnil
      cases forms with
      | nil => rfl
      | cons form' forms =>
        cases b with
        | nil => exact h.2
        | cons d b =>
          rw [List.nil_append, startsWithForms, Bool.and_eq_true] at h
          exact absurd (List.contains_iff_mem.mp h.2.1) (hb d rfl form' List.mem_cons_self)
    · exact ih hnil (fun d hd form' hform' => hb d hd form' (List.mem_of_mem_tail hform')) h.2

/-- Headers are found in each of two texts, if none runs over the border. -/
theorem fromHeaders_append (hb : ∀ c, b.head? = some c → ∀ form ∈ headerForms.tail, c ∉ form)
    (a : List Char) : fromHeaders (a ++ b) = (fromHeaders a).map (· ++ b) ++ fromHeaders b := by
  induction a with
  | nil => rfl
  | cons c a ih =>
    have hhere : startsHeader (c :: (a ++ b)) = startsHeader (c :: a) := by
      rw [Bool.eq_iff_iff]
      constructor
      · exact startsWithForms_of_append (List.cons_ne_nil c a) hb
      · intro hstart
        obtain ⟨h, rest, hh, hca⟩ := startsHeader_iff.mp hstart
        rw [← List.cons_append, hca, List.append_assoc]
        exact hh.startsHeader (rest ++ b)
    rw [List.cons_append, fromHeaders, fromHeaders, hhere, ih]
    split <;> rfl

/-- The first character of a header is at no other place of one. -/
theorem IsHeader.head_notMem (hh : IsHeader h) (rest : List Char) :
    ∀ c, (h ++ rest).head? = some c → ∀ form ∈ headerForms.tail, c ∉ form := by
  have hlower : ∀ form ∈ headerForms.tail, 'u' ∉ form := by decide
  have hupper : ∀ form ∈ headerForms.tail, 'U' ∉ form := by decide
  intro c hc
  obtain ⟨d, h, rfl⟩ := List.exists_cons_of_ne_nil hh.ne_nil
  obtain rfl : d = c := Option.some.inj hc
  have hfold : foldCase d = 'u' := (List.cons.inj hh).1
  have hform : d ∈ ['u', 'U'] := ((List.forall₂_cons.mp forall₂_headerForms).1 d).mpr hfold
  simp only [List.mem_cons, List.not_mem_nil, or_false] at hform
  rcases hform with rfl | rfl
  · exact hlower
  · exact hupper

end Synopsis.Usage
