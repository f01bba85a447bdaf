import Synopsis.Proofs.Positionals

/-!
# Spellings of an invocation

What a strict reader accepts, said without reading. `Spells r words leaves` lists the ways to write
leaves as words: a positional word as itself, all words from a lone `--` on as themselves, a long
option by its name or an abbreviation that only one option has, and a cluster of short options of which
the last may have its value attached or in the next word. The relation looks at a registry only
through `Only`: exactly one entry has a property, wherever it stands.

Main statement: a strict reader reads words into leaves exactly if the words are a spelling of the
leaves (`readInvocation_strict_iff`). In one direction each reader is shown to stop only where a
spelling ends, in the other each spelling drives the reader to its end.
-/

namespace Synopsis

/-! ## Entries of a registry -/

namespace Registry

/-- **`r.Only P o`**: `o` is an entry with the property `P`, and no other entry has it. -/
def Only (r : Registry) (P : Opt → Prop) (o : Opt) : Prop :=
  ∃ before after, r = before ++ o :: after ∧ P o ∧ ∀ e ∈ before ++ after, ¬ P e

/-- The entry has the given long name. -/
def HasLong (name : String) (o : Opt) : Prop := o.long = some name

/-- The entry has a long name that the given one abbreviates. -/
def Abbreviated (name : String) (o : Opt) : Prop :=
  ∃ long, o.long = some long ∧ name.toList <+: long.toList

/-- The entry has the short name of the given letter. -/
def HasLetter (c : Char) (o : Opt) : Prop := o.short = some (shortName c)

/-- **`r.Resolves name o`**: a long name stands for `o`, as its full name or, if no entry has that
name, as an abbreviation that no other entry has. -/
def Resolves (r : Registry) (name : String) (o : Opt) : Prop :=
  r.Only (HasLong name) o ∨ ((∀ e ∈ r, ¬ HasLong name e) ∧ r.Only (Abbreviated name) o)

theorem filter_eq_singleton_iff {r : Registry} {test : Opt → Bool} {P : Opt → Prop}
    (htest : ∀ e, test e = true ↔ P e) {o : Opt} : r.filter test = [o] ↔ r.Only P o := by
  rw [List.filter_eq_cons_iff]
  constructor
  · rintro ⟨before, after, rfl, hbefore, ho, hafter⟩
    refine ⟨before, after, rfl, (htest o).mp ho, ?_⟩
    intro e he hP
    rcases List.mem_append.mp he with he | he
    · exact hbefore e he ((htest e).mpr hP)
    · exact List.filter_eq_nil_iff.mp hafter e he ((htest e).mpr hP)
  · rintro ⟨before, after, rfl, ho, hothers⟩
    refine ⟨before, after, rfl, ?_, (htest o).mpr ho, ?_⟩
    · intro e he hP
      exact hothers e (List.mem_append_left after he) ((htest e).mp hP)
    · rw [List.filter_eq_nil_iff]
      intro e he hP
      exact hothers e (List.mem_append_right before he) ((htest e).mp hP)

theorem Only.mem {r : Registry} {P : Opt → Prop} {o : Opt} (h : r.Only P o) : o ∈ r := by
  obtain ⟨before, after, rfl, -, -⟩ := h
  exact List.mem_append_right before List.mem_cons_self

theorem hasLong_iff (name : String) (o : Opt) : (o.long == some name) = true ↔ HasLong name o := by
  rw [beq_iff_eq, HasLong]

theorem abbreviated_iff (name : String) (o : Opt) :
    (o.long.any fun long => name.toList.isPrefixOf long.toList) = true ↔ Abbreviated name o := by
  rw [Option.any_eq_true, Abbreviated]
  simp only [List.isPrefixOf_iff_prefix]

theorem shortCandidates_eq_singleton_iff {r : Registry} {c : Char} {o : Opt} :
    r.shortCandidates (shortName c) = [o] ↔ r.Only (HasLetter c) o := by
  refine filter_eq_singleton_iff ?_
  intro e
  rw [beq_iff_eq, HasLetter]

/-- There is one candidate for a long name exactly if the name stands for it. -/
theorem longCandidates_eq_singleton_iff {r : Registry} {name : String} {o : Opt} :
    r.longCandidates name = [o] ↔ r.Resolves name o := by
  unfold longCandidates
  split
  · next hnone =>
    have hno : ∀ e ∈ r, ¬ HasLong name e := by
      intro e he hP
      exact List.filter_eq_nil_iff.mp hnone e he ((hasLong_iff name e).mpr hP)
    rw [filter_eq_singleton_iff (abbreviated_iff name)]
    constructor
    · intro honly
      exact Or.inr ⟨hno, honly⟩
    · rintro (honly | ⟨-, honly⟩)
      · obtain ⟨before, after, rfl, ho, -⟩ := honly
        exact absurd ho (hno o (List.mem_append_right before List.mem_cons_self))
      · exact honly
  · next hsome =>
    rw [filter_eq_singleton_iff (hasLong_iff name)]
    constructor
    · intro honly
      exact Or.inl honly
    · rintro (honly | ⟨hno, -⟩)
      · exact honly
      · refine absurd (List.filter_eq_nil_iff.mpr ?_) hsome
        intro e he hP
        exact hno e he ((hasLong_iff name e).mp hP)

theorem Resolves.mem {r : Registry} {name : String} {o : Opt} (h : r.Resolves name o) : o ∈ r := by
  rcases h with h | ⟨-, h⟩
  · exact h.mem
  · exact h.mem

end Registry

/-! ## Spellings -/

/-- **`CutsInto w name value`**: the word is cut at its first equal sign into a name and a value, and
an empty value counts as none. -/
def CutsInto (w name : String) (value : Option String) : Prop :=
  '=' ∉ name.toList ∧
    match value with
    | none => w = name ∨ w = name ++ "="
    | some v => v ≠ "" ∧ w = name ++ "=" ++ v

/-- **`SpellsLong r w ws o ws'`**: the word `w`, before the words `ws`, spells the long option `o`
with its value, and the words `ws'` are left. -/
inductive SpellsLong (r : Registry) (w : String) : List String → Opt → List String → Prop
  /-- A flag has no value and is true. -/
  | flag {name : String} {o : Opt} {ws : List String} (hcut : CutsInto w name none)
      (ho : r.Resolves name o) (harity : o.arity = 0) :
      SpellsLong r w ws (o.given (.bool true)) ws
  /-- The value is written with the name. -/
  | inline {name v : String} {o : Opt} {ws : List String} (hcut : CutsInto w name (some v))
      (ho : r.Resolves name o) (harity : o.arity = 1) :
      SpellsLong r w ws (o.given (.str v)) ws
  /-- The value is the next word, whatever it looks like. -/
  | next {name v : String} {o : Opt} {ws : List String} (hcut : CutsInto w name none)
      (ho : r.Resolves name o) (harity : o.arity = 1) :
      SpellsLong r w (v :: ws) (o.given (.str v)) ws

/-- **`SpellsLetters r cs ws os ws'`**: the letters `cs` of a cluster, before the words `ws`, spell the
options `os`, and the words `ws'` are left. -/
inductive SpellsLetters (r : Registry) : List Char → List String → List Opt → List String → Prop
  /-- The cluster ends. -/
  | done {ws : List String} : SpellsLetters r [] ws [] ws
  /-- A flag is true, and the cluster goes on. -/
  | flag {c : Char} {cs : List Char} {ws ws' : List String} {o : Opt} {os : List Opt}
      (ho : r.Only (Registry.HasLetter c) o) (harity : o.arity = 0)
      (hcs : SpellsLetters r cs ws os ws') :
      SpellsLetters r (c :: cs) ws (o.given (.bool true) :: os) ws'
  /-- An option with a value takes what is left of the cluster. -/
  | attached {c : Char} {cs : List Char} {ws : List String} {o : Opt}
      (ho : r.Only (Registry.HasLetter c) o) (harity : o.arity = 1) (hcs : cs ≠ []) :
      SpellsLetters r (c :: cs) ws [o.given (.str (String.ofList cs))] ws
  /-- At the end of the cluster it takes the next word, whatever it looks like. -/
  | detached {c : Char} {v : String} {ws : List String} {o : Opt}
      (ho : r.Only (Registry.HasLetter c) o) (harity : o.arity = 1) :
      SpellsLetters r [c] (v :: ws) [o.given (.str v)] ws

/-- **`Spells r words leaves`**: the words are a spelling of the leaves with the options of `r`. -/
inductive Spells (r : Registry) : List String → List Leaf → Prop
  | nil : Spells r [] []
  /-- A lone dash, or a word that starts with no dash, is positional. -/
  | word {w : String} {ws : List String} {ls : List Leaf}
      (hw : w = "-" ∨ w.toList.head? ≠ some '-') (hls : Spells r ws ls) :
      Spells r (w :: ws) (.positional w :: ls)
  /-- Two dashes, and all words after them, are positional. -/
  | separator {ws : List String} : Spells r ("--" :: ws) (("--" :: ws).map Leaf.positional)
  /-- Any other word that starts with two dashes spells a long option. -/
  | long {w : String} {ws ws' : List String} {o : Opt} {ls : List Leaf}
      (hw : ['-', '-'] <+: w.toList) (hne : w ≠ "--") (ho : SpellsLong r w ws o ws')
      (hls : Spells r ws' ls) : Spells r (w :: ws) (.option o :: ls)
  /-- Any other word that starts with a dash spells a cluster of short options. -/
  | cluster {w : String} {c : Char} {cs : List Char} {ws ws' : List String} {os : List Opt}
      {ls : List Leaf} (hw : w.toList = '-' :: c :: cs) (hc : c ≠ '-')
      (hos : SpellsLetters r (c :: cs) ws os ws') (hls : Spells r ws' ls) :
      Spells r (w :: ws) (os.map Leaf.option ++ ls)

/-! ## Kinds of words -/

/-- **`k.Shape w`**: the word has the dashes of a word of kind `k`. -/
def WordKind.Shape : WordKind → String → Prop
  | separator, w => w = "--"
  | long, w => ['-', '-'] <+: w.toList ∧ w ≠ "--"
  | cluster, w => ∃ c cs, w.toList = '-' :: c :: cs ∧ c ≠ '-'
  | plain, w => w = "-" ∨ w.toList.head? ≠ some '-'

theorem WordKind.shape_of (w : String) : (WordKind.of w).Shape w := by
  unfold WordKind.of
  generalize hcs : w.toList = cs
  fun_cases WordKind.ofChars cs with
  | case1 => exact Or.inl (String.toList_inj.mp hcs)
  | case2 => exact String.toList_inj.mp hcs
  | case3 ds hds =>
    refine ⟨⟨ds, hcs.symm⟩, ?_⟩
    rintro rfl
    exact hds (by simpa using hcs.symm)
  | case4 ds hnil _ hdash =>
    obtain ⟨c, cs, rfl⟩ := List.exists_cons_of_ne_nil hnil
    refine ⟨c, cs, hcs, ?_⟩
    rintro rfl
    exact hdash cs rfl
  | case5 cs _ _ _ hdash =>
    refine Or.inr ?_
    intro hhead
    obtain ⟨ds, hds⟩ := List.head?_eq_some_iff.mp hhead
    exact hdash ds (hcs.symm.trans hds)

theorem WordKind.of_eq_of_shape {k : WordKind} {w : String} (h : k.Shape w) :
    WordKind.of w = k := by
  unfold WordKind.of
  cases k with
  | separator =>
    obtain rfl : w = "--" := h
    rfl
  | long =>
    obtain ⟨⟨ds, hw⟩, hne⟩ := h
    cases ds with
    | nil => exact absurd (String.toList_inj.mp hw.symm) hne
    | cons d ds =>
      rw [← hw]
      rfl
  | cluster =>
    obtain ⟨c, cs, hw, hc⟩ := h
    rw [hw]
    simp [WordKind.ofChars, hc]
  | plain =>
    rcases h with rfl | hhead
    · rfl
    · cases hw : w.toList with
      | nil => rfl
      | cons c cs =>
        rw [hw] at hhead
        have hc : c ≠ '-' := fun hc => hhead (congrArg some hc)
        simp [WordKind.ofChars, hc]

/-- The kind of a word is the one whose dashes it has. -/
theorem wordKind_eq_iff {w : String} {k : WordKind} : WordKind.of w = k ↔ k.Shape w := by
  constructor
  · rintro rfl
    exact WordKind.shape_of w
  · exact WordKind.of_eq_of_shape

/-! ## Long options -/

theorem takeWhile_append_of_notMem {name rest : List Char} (hname : '=' ∉ name)
    (hrest : rest.head? = none ∨ rest.head? = some '=') :
    (name ++ rest).takeWhile (· != '=') = name ∧ (name ++ rest).dropWhile (· != '=') = rest := by
  have hall : ∀ c ∈ name, (c != '=') = true := by
    intro c hc
    rw [bne_iff_ne]
    rintro rfl
    exact hname hc
  rw [List.takeWhile_append_of_pos hall, List.dropWhile_append_of_pos hall]
  match rest, hrest with
  | [], _ => simp
  | c :: cs, hrest =>
    obtain rfl : c = '=' := by simpa using hrest
    simp

/-- The name and the value of a word are read off any cut at its first equal sign. -/
theorem longName_of_append {w name : String} {rest : List Char} (hname : '=' ∉ name.toList)
    (hrest : rest.head? = none ∨ rest.head? = some '=') (hw : w.toList = name.toList ++ rest) :
    longName w = name ∧
      inlineValue? w = if rest.drop 1 = [] then none else some (String.ofList (rest.drop 1)) := by
  obtain ⟨htake, hdrop⟩ := takeWhile_append_of_notMem hname hrest
  constructor
  · rw [longName, hw, htake, String.ofList_toList]
  · unfold inlineValue?
    rw [hw, hdrop]
    split
    · next hnil => rw [if_pos hnil]
    · next hcons => rw [if_neg hcons]

/-- A word is cut in one way: into its name and the value written with it. -/
theorem cutsInto_iff {w name : String} {value : Option String} :
    CutsInto w name value ↔ longName w = name ∧ inlineValue? w = value := by
  constructor
  · rintro ⟨hname, hvalue⟩
    cases value with
    | none =>
      rcases hvalue with rfl | rfl
      · exact longName_of_append hname (Or.inl rfl) (List.append_nil _).symm
      · exact longName_of_append hname (Or.inr rfl) String.toList_append
    | some v =>
      obtain ⟨hne, rfl⟩ := hvalue
      have hw : (name ++ "=" ++ v).toList = name.toList ++ '=' :: v.toList := by
        simp [String.toList_append]
      have hcut := longName_of_append hname (Or.inr rfl) hw
      have hv : v.toList ≠ [] := by
        intro hnil
        exact hne (String.toList_inj.mp hnil)
      simpa [hv] using hcut
  · rintro ⟨rfl, rfl⟩
    have hsplit : w.toList = (longName w).toList ++ w.toList.dropWhile (· != '=') := by
      rw [longName, String.toList_ofList, List.takeWhile_append_dropWhile]
    refine ⟨?_, ?_⟩
    · intro hmem
      rw [longName, String.toList_ofList] at hmem
      have hall := List.all_eq_true.mp List.all_takeWhile _ hmem
      simp at hall
    · unfold inlineValue?
      cases hrest : w.toList.dropWhile (· != '=') with
      | nil =>
        rw [hrest, List.append_nil] at hsplit
        exact Or.inl (String.toList_inj.mp hsplit)
      | cons c cs =>
        have hc : c = '=' := by
          have hhead := List.head?_dropWhile_not (· != '=') w.toList
          rw [hrest] at hhead
          simpa using hhead
        rw [hrest, hc] at hsplit
        cases cs with
        | nil =>
          refine Or.inr (String.toList_inj.mp ?_)
          rw [hsplit, String.toList_append]
          rfl
        | cons d ds =>
          refine ⟨?_, String.toList_inj.mp ?_⟩
          · simp [← String.toList_inj]
          · rw [hsplit]
            simp [String.toList_append]

theorem reading_ok_inj {os os' : List Opt} {r : Registry} {ws ws' : List String} :
    Reading.ok os r ws = .ok os' r ws' ↔ os = os' ∧ ws = ws' := by
  simp [Reading.ok]

theorem reading_fail_ne_ok {mode : Mode} {fault : OptionFault} {os : List Opt} {r r' : Registry}
    {ws ws' : List String} : Reading.fail mode fault r ws ≠ .ok os r' ws' := by
  intro h
  cases h

/-- A known long option is given its value in one of the three ways. -/
theorem readLongValue_eq_ok_iff {mode : Mode} {o : Opt} (harity : o.arity = 0 ∨ o.arity = 1)
    {value : Option String} {r : Registry} {ws ws' : List String} {os : List Opt} :
    readLongValue mode o value r ws = .ok os r ws' ↔
      (o.arity = 0 ∧ value = none ∧ os = [o.given (.bool true)] ∧ ws' = ws) ∨
      (o.arity = 1 ∧ ∃ v, value = some v ∧ os = [o.given (.str v)] ∧ ws' = ws) ∨
      (o.arity = 1 ∧ value = none ∧ ∃ v, ws = v :: ws' ∧ os = [o.given (.str v)]) := by
  rcases harity with h0 | h1
  · cases value with
    | none => simp [readLongValue, h0, reading_ok_inj, eq_comm]
    | some v => simp [readLongValue, h0, reading_fail_ne_ok]
  · cases value with
    | none =>
      cases ws with
      | nil => simp [readLongValue, h1, reading_fail_ne_ok]
      | cons u ws =>
        have hread : readLongValue mode o none r (u :: ws) = .ok [o.given (.str u)] r ws := by
          simp only [readLongValue, if_pos h1]
        rw [hread, reading_ok_inj]
        constructor
        · rintro ⟨rfl, rfl⟩
          exact Or.inr (Or.inr ⟨h1, rfl, u, rfl, rfl⟩)
        · rintro (⟨h0, -⟩ | ⟨-, v, hv, -⟩ | ⟨-, -, v, hws, rfl⟩)
          · omega
          · cases hv
          · obtain ⟨rfl, rfl⟩ := List.cons.inj hws
            exact ⟨rfl, rfl⟩
    | some v => simp [readLongValue, h1, reading_ok_inj, eq_comm]

theorem registry_readLong_strict (r : Registry) (ws : List String) :
    (readLong .strict r ws).registry = r := by
  fun_cases readLong .strict r ws with
  | case1 => rfl
  | case2 w ws name hnone hregisters => cases hregisters
  | case3 => rfl
  | case4 w ws name o ho =>
    unfold readLongValue
    split
    · split <;> rfl
    · split <;> rfl
  | case5 => rfl

/-- A strict reader reads a word as a long option exactly if the word spells one. -/
theorem readLong_strict_iff {r : Registry} (hr : ∀ o ∈ r, o.arity = 0 ∨ o.arity = 1) {w : String}
    {ws ws' : List String} {os : List Opt} :
    readLong .strict r (w :: ws) = .ok os r ws' ↔ ∃ o, os = [o] ∧ SpellsLong r w ws o ws' := by
  constructor
  · intro h
    simp only [readLong] at h
    split at h
    · cases h
    · next o hcandidate =>
      have ho := Registry.longCandidates_eq_singleton_iff.mp hcandidate
      rcases (readLongValue_eq_ok_iff (hr o ho.mem)).mp h with
        ⟨harity, hvalue, rfl, rfl⟩ | ⟨harity, v, hvalue, rfl, rfl⟩ | ⟨harity, hvalue, v, rfl, rfl⟩
      · exact ⟨_, rfl, .flag (cutsInto_iff.mpr ⟨rfl, hvalue⟩) ho harity⟩
      · exact ⟨_, rfl, .inline (cutsInto_iff.mpr ⟨rfl, hvalue⟩) ho harity⟩
      · exact ⟨_, rfl, .next (cutsInto_iff.mpr ⟨rfl, hvalue⟩) ho harity⟩
    · cases h
  · -- the spelling says which candidate there is and where its value stands
    have hread : ∀ {name : String} {value : Option String} {o : Opt}, CutsInto w name value →
        r.Resolves name o → readLong .strict r (w :: ws) = readLongValue .strict o value r ws := by
      intro name value o hcut ho
      obtain ⟨rfl, rfl⟩ := cutsInto_iff.mp hcut
      simp only [readLong, Registry.longCandidates_eq_singleton_iff.mpr ho]
    rintro ⟨o, rfl, hspells⟩
    cases hspells with
    | flag hcut ho harity =>
      rw [hread hcut ho, readLongValue_eq_ok_iff (hr _ ho.mem)]
      exact Or.inl ⟨harity, rfl, rfl, rfl⟩
    | inline hcut ho harity =>
      rw [hread hcut ho, readLongValue_eq_ok_iff (hr _ ho.mem)]
      exact Or.inr (Or.inl ⟨harity, _, rfl, rfl, rfl⟩)
    | next hcut ho harity =>
      rw [hread hcut ho, readLongValue_eq_ok_iff (hr _ ho.mem)]
      exact Or.inr (Or.inr ⟨harity, rfl, _, rfl, rfl⟩)

/-! ## Clusters -/

theorem registry_readLetters_strict (r : Registry) (ws : List String) (cs : List Char) :
    (readLetters .strict r ws cs).registry = r := by
  induction cs with
  | nil => rfl
  | cons c cs ih =>
    unfold readLetters
    simp only
    split
    · rfl
    · split
      · exact ih
      · split <;> rfl
    · rfl

theorem precededBy_eq_ok_iff {o : Opt} {reading : Reading} {r : Registry} {os : List Opt}
    {ws : List String} :
    reading.precededBy o = .ok os r ws ↔ ∃ tail, os = o :: tail ∧ reading = .ok tail r ws := by
  obtain ⟨outcome, registry, rest⟩ := reading
  cases outcome with
  | error fault => simp [Reading.precededBy, Reading.ok, Except.map]
  | ok found =>
    constructor
    · intro h
      obtain ⟨hfound, rfl, rfl⟩ := Reading.mk.inj h
      exact ⟨found, (Except.ok.inj hfound).symm, rfl⟩
    · rintro ⟨tail, rfl, h⟩
      obtain ⟨hfound, rfl, rfl⟩ := Reading.mk.inj h
      rw [Except.ok.inj hfound]
      rfl

/-- A strict reader reads the letters of a cluster exactly if they spell options. -/
theorem readLetters_strict_iff {r : Registry} (hr : ∀ o ∈ r, o.arity = 0 ∨ o.arity = 1)
    {ws ws' : List String} {cs : List Char} {os : List Opt} :
    readLetters .strict r ws cs = .ok os r ws' ↔ SpellsLetters r cs ws os ws' := by
  induction cs generalizing os with
  | nil =>
    rw [readLetters, reading_ok_inj]
    constructor
    · rintro ⟨rfl, rfl⟩
      exact .done
    · intro h
      cases h
      exact ⟨rfl, rfl⟩
  | cons c cs ih =>
    constructor
    · intro h
      simp only [readLetters] at h
      split at h
      · cases h
      · next o hcandidate =>
        have ho := Registry.shortCandidates_eq_singleton_iff.mp hcandidate
        split at h
        · next harity =>
          obtain ⟨tail, rfl, htail⟩ := precededBy_eq_ok_iff.mp h
          exact .flag ho harity (ih.mp htail)
        · next harity =>
          have hone : o.arity = 1 := by
            rcases hr o ho.mem with h0 | h1
            · exact absurd h0 harity
            · exact h1
          split at h
          · obtain ⟨rfl, rfl⟩ := reading_ok_inj.mp h
            exact .attached ho hone (List.cons_ne_nil _ _)
          · obtain ⟨rfl, rfl⟩ := reading_ok_inj.mp h
            exact .detached ho hone
          · cases h
      · cases h
    · intro h
      cases h with
      | flag ho harity hcs =>
        simp only [readLetters, Registry.shortCandidates_eq_singleton_iff.mpr ho, if_pos harity]
        exact precededBy_eq_ok_iff.mpr ⟨_, rfl, ih.mpr hcs⟩
      | attached ho harity hne =>
        obtain ⟨d, ds, rfl⟩ := List.exists_cons_of_ne_nil hne
        simp only [readLetters, Registry.shortCandidates_eq_singleton_iff.mpr ho]
        rw [if_neg (by omega)]
      | detached ho harity =>
        simp only [readLetters, Registry.shortCandidates_eq_singleton_iff.mpr ho]
        rw [if_neg (by omega)]

/-! ## Invocations -/

/-- A strict reading that meets no fault leaves the registry as it was. -/
theorem reading_eq_ok {reading : Reading} {r : Registry} {os : List Opt}
    (hregistry : reading.registry = r) (hos : reading.outcome = .ok os) :
    reading = .ok os r reading.rest := by
  rw [Reading.ok, ← hos, ← hregistry]

theorem spells_of_readInvocation {r : Registry} (hr : ∀ o ∈ r, o.arity = 0 ∨ o.arity = 1)
    {words : List String} {leaves : List Leaf}
    (h : (readInvocation .strict r words).outcome = .ok leaves) : Spells r words leaves := by
  fun_induction readInvocation .strict r words generalizing leaves with
  | case1 =>
    obtain rfl := Except.ok.inj h
    exact .nil
  | case2 r w ws hkind =>
    obtain rfl := Except.ok.inj h
    obtain rfl := wordKind_eq_iff.mp hkind
    exact .separator
  | case3 r w ws hkind reading os hos =>
    rename_i ih
    -- a strict reader registers nothing, so the words that are left are read with the same options
    have hregistry : reading.registry = r := registry_readLong_strict r (w :: ws)
    rw [hregistry] at ih h
    obtain ⟨hdashes, hne⟩ := wordKind_eq_iff.mp hkind
    obtain ⟨o, rfl, hlong⟩ := (readLong_strict_iff hr).mp (reading_eq_ok hregistry hos)
    obtain ⟨ls, hls, rfl⟩ := outcome_precededBy h
    exact .long hdashes hne hlong (ih hr hls)
  | case4 => cases h
  | case5 r w ws hkind reading os hos =>
    rename_i ih
    have hregistry : reading.registry = r := registry_readLetters_strict r ws (w.toList.drop 1)
    rw [hregistry] at ih h
    obtain ⟨c, cs, hw, hc⟩ := wordKind_eq_iff.mp hkind
    have hcs : c :: cs = w.toList.drop 1 := by rw [hw]; rfl
    have hletters : SpellsLetters r (c :: cs) ws os reading.rest := by
      rw [hcs]
      exact (readLetters_strict_iff hr).mp (reading_eq_ok hregistry hos)
    obtain ⟨ls, hls, rfl⟩ := outcome_precededBy h
    exact .cluster hw hc hletters (ih hr hls)
  | case6 => cases h
  | case7 r w ws hkind ih =>
    obtain ⟨ls, hls, rfl⟩ := outcome_precededBy h
    exact .word (wordKind_eq_iff.mp hkind) (ih hr hls)

theorem readInvocation_of_spells {r : Registry} (hr : ∀ o ∈ r, o.arity = 0 ∨ o.arity = 1)
    {words : List String} {leaves : List Leaf} (h : Spells r words leaves) :
    (readInvocation .strict r words).outcome = .ok leaves := by
  induction h with
  | nil => rw [readInvocation]
  | @word w ws ls hw _ ih =>
    have hkind : WordKind.of w = .plain := WordKind.of_eq_of_shape hw
    rw [readInvocation]
    simp only [hkind, Invocation.precededBy, ih]
    rfl
  | @separator ws =>
    have hkind : WordKind.of "--" = .separator := WordKind.of_eq_of_shape rfl
    rw [readInvocation]
    simp only [hkind]
  | @long w ws ws' o ls hdashes hne ho _ ih =>
    have hkind : WordKind.of w = .long := WordKind.of_eq_of_shape ⟨hdashes, hne⟩
    have hread : readLong .strict r (w :: ws) = .ok [o] r ws' :=
      (readLong_strict_iff hr).mpr ⟨o, rfl, ho⟩
    rw [readInvocation]
    simp only [hkind, hread, Reading.ok, Invocation.precededBy, ih]
    rfl
  | @cluster w c cs ws ws' os ls hw hc hos _ ih =>
    have hkind : WordKind.of w = .cluster := WordKind.of_eq_of_shape ⟨c, cs, hw, hc⟩
    have hread : readCluster .strict r (w :: ws) = .ok os r ws' := by
      rw [readCluster, hw]
      exact (readLetters_strict_iff hr).mpr hos
    rw [readInvocation]
    simp only [hkind, hread, Reading.ok, Invocation.precededBy, ih]
    rfl

/-- **A strict reader accepts exactly the spellings.** With options that take no value or one, words
are read into leaves if and only if they are a spelling of them. -/
theorem readInvocation_strict_iff {r : Registry} (hr : ∀ o ∈ r, o.arity = 0 ∨ o.arity = 1)
    (words : List String) (leaves : List Leaf) :
    (readInvocation .strict r words).outcome = .ok leaves ↔ Spells r words leaves :=
  ⟨spells_of_readInvocation hr, readInvocation_of_spells hr⟩

/-- The value of `-o` is the next word although it looks like the separator, and `--ver` is the only
abbreviation; the cluster mixes a flag with an option that takes a value. -/
theorem readInvocation_strict_sample :
    let r : Registry := [.declared (some "-v") (some "--verbose") 0, .declared (some "-o") none 1]
    let words := ["--ver", "-vo", "--", "x", "-vofile", "--", "-v"]
    let leaves : List Leaf :=
      [.option ⟨some "-v", some "--verbose", 0, .bool true⟩,
        .option ⟨some "-v", some "--verbose", 0, .bool true⟩, .option ⟨some "-o", none, 1, .str "--"⟩,
        .positional "x", .option ⟨some "-v", some "--verbose", 0, .bool true⟩,
        .option ⟨some "-o", none, 1, .str "file"⟩, .positional "--", .positional "-v"]
    (∀ o ∈ r, o.arity = 0 ∨ o.arity = 1) ∧
      (readInvocation .strict r words).outcome = .ok leaves ∧ Spells r words leaves := by
  intro r words leaves
  have hr : ∀ o ∈ r, o.arity = 0 ∨ o.arity = 1 := by decide
  have hread : (readInvocation .strict r words).outcome = .ok leaves := by cbv
  exact ⟨hr, hread, (readInvocation_strict_iff hr words leaves).mp hread⟩

end Synopsis
