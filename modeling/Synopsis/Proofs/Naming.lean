import Synopsis.Proofs.Blame
import Synopsis.Proofs.Brackets
import Synopsis.Proofs.OptionLines
import Synopsis.Proofs.Report
import Synopsis.Proofs.Separation

/-!
# Options without a name

Each line of a help text that starts with a dash describes an option, whatever follows. A name is a dash with
something behind it, so a line that starts with a dash by itself, as an item of a list does, may describe an
option that has no name. It is known like the others, and every invocation reports it under the empty text.

This is the only way in which the empty text can become a key. An option that a reader takes up has a name
(`Registry.Gains`), from an invocation as well as from a usage pattern, and so have the arguments and commands
of a pattern, since no token is empty (`Draft.Named`). `Interface.named_iff` says which help texts are affected.
-/

namespace Synopsis

open Text Description

/-! ## Names in a description -/

/-- **`o.HasName`**: the option has a short or a long name. -/
def Opt.HasName (o : Opt) : Prop := o.short ≠ none ∨ o.long ≠ none

theorem Opt.hasName_of_name_ne_empty {o : Opt} (h : o.name ≠ "") : o.HasName := by
  by_contra hnone
  simp only [HasName, not_or, not_not] at hnone
  exact h (by rw [name, hnone.1, hnone.2]; rfl)

theorem Opt.name_ne_empty {o : Opt} (h : o.HasName) (hshort : o.short ≠ some "") (hlong : o.long ≠ some "") :
    o.name ≠ "" := by
  unfold name
  cases hl : o.long with
  | some s =>
    rintro rfl
    exact hlong hl
  | none =>
    cases hs : o.short with
    | some s =>
      rintro rfl
      exact hshort hs
    | none => exact absurd h (by simp [HasName, hl, hs])

namespace Description

variable {w l : List Char} {ws ls : List (List Char)} {found : Option (List Char)}

/-- A name is a dash with something behind it. -/
theorem isName_iff : (isLongName w = true ∨ isShortName w = true) ↔ ∃ c cs, w = '-' :: c :: cs := by
  constructor
  · rintro (hlong | hshort)
    · obtain ⟨cs, rfl⟩ := List.isPrefixOf_iff_prefix.mp hlong
      exact ⟨'-', cs, rfl⟩
    · simp only [isShortName, Bool.and_eq_true, beq_iff_eq, decide_eq_true_eq] at hshort
      obtain ⟨⟨hhead, -⟩, hlength⟩ := hshort
      obtain ⟨cs, rfl⟩ := List.head?_eq_some_iff.mp hhead
      obtain ⟨c, cs, rfl⟩ := List.exists_cons_of_length_pos (Nat.lt_of_succ_lt_succ hlength)
      exact ⟨c, cs, rfl⟩
  · rintro ⟨c, cs, rfl⟩
    cases hlong : isLongName ('-' :: c :: cs) with
    | true => exact Or.inl rfl
    | false => exact Or.inr (by simp [isShortName, hlong])

/-- **`HoldsName ws`**: one of the words is a name. -/
def HoldsName (ws : List (List Char)) : Prop := ∃ c cs, '-' :: c :: cs ∈ ws

theorem holdsName_iff : HoldsName ws ↔ ∃ w ∈ ws, isLongName w = true ∨ isShortName w = true := by
  simp only [isName_iff]
  constructor
  · rintro ⟨c, cs, hw⟩
    exact ⟨_, hw, c, cs, rfl⟩
  · rintro ⟨w, hw, c, cs, rfl⟩
    exact ⟨c, cs, hw⟩

instance (ws : List (List Char)) : Decidable (HoldsName ws) := decidable_of_iff' _ holdsName_iff

/-- Some word gives the option its name exactly if there is a name among the words. -/
theorem hasName_describe_iff : (describe ws found).HasName ↔ HoldsName ws := by
  have hlast : ∀ p : List Char → Bool,
      (ws.filter p).getLast?.map String.ofList ≠ none ↔ ∃ w ∈ ws, p w = true := by
    intro p
    simp
  have hshort : (describe ws found).short ≠ none ↔ ∃ w ∈ ws, isShortName w = true := hlast isShortName
  have hlong : (describe ws found).long ≠ none ↔ ∃ w ∈ ws, isLongName w = true := hlast isLongName
  rw [Opt.HasName, hshort, hlong, or_comm, ← exists_or, holdsName_iff]
  simp only [← and_or_left]

theorem getLast?_filter_map_ne {p : List Char → Bool} (hp : p [] = false) (ws : List (List Char)) :
    (ws.filter p).getLast?.map String.ofList ≠ some "" := by
  intro hlast
  obtain ⟨w, hw, hempty⟩ := Option.map_eq_some_iff.mp hlast
  obtain ⟨-, hpw⟩ := List.mem_filter.mp (List.mem_of_getLast? hw)
  rw [String.ofList_eq_empty_iff.mp hempty, hp] at hpw
  cases hpw

/-- An option that is described is reported under the empty text only if it has no name. -/
theorem name_parse_ne_empty {text : List Char} (h : (Description.parse text).HasName) :
    (Description.parse text).name ≠ "" := by
  rw [parse_eq_describe] at h ⊢
  exact Opt.name_ne_empty h (getLast?_filter_map_ne (by decide) _) (getLast?_filter_map_ne (by decide) _)

/-! ## Option lines with a name -/

/-- **`AllNamed ls`**: each option line has a name among its words in front of the double space, or among the
strays behind it. -/
def AllNamed (ls : List (List Char)) : Prop :=
  ∀ before l following, ls = before ++ l :: following → opensBlock l = true →
    HoldsName (headWords l ++ strays l following)

theorem allNamed_nil : AllNamed [] := by
  intro before l following h
  cases before <;> cases h

theorem allNamed_cons :
    AllNamed (l :: ls) ↔ (opensBlock l = true → HoldsName (headWords l ++ strays l ls)) ∧ AllNamed ls := by
  constructor
  · intro hall
    refine ⟨hall [] l ls rfl, ?_⟩
    intro before m following hls
    exact hall (l :: before) m following (by rw [hls, List.cons_append])
  · rintro ⟨hfirst, hall⟩ before m following hls
    cases before with
    | nil =>
      obtain ⟨rfl, rfl⟩ := List.cons.inj hls
      exact hfirst
    | cons _ before => exact hall before m following (List.cons.inj hls).2

instance decidableAllNamed : (ls : List (List Char)) → Decidable (AllNamed ls)
  | [] => isTrue allNamed_nil
  | _ :: ls =>
    have := decidableAllNamed ls
    decidable_of_iff' _ allNamed_cons

/-- The options that lines describe have names exactly if the option lines do. -/
theorem forall_hasName_iff (ls : List (List Char)) :
    (∀ o ∈ (blocks ls).map Description.parse, o.HasName) ↔ AllNamed ls := by
  induction ls with
  | nil => exact iff_of_true (fun _ ho => absurd ho List.not_mem_nil) allNamed_nil
  | cons l ls ih =>
    rw [allNamed_cons, ← ih]
    cases hl : opensBlock l with
    | true =>
      rw [blocks_cons_of_opens hl, List.map_cons, List.forall_mem_cons, parse_block hl, hasName_describe_iff]
      simp only [forall_const]
    | false =>
      rw [blocks_cons_of_not_opens hl]
      simp only [Bool.false_eq_true, false_imp_iff, true_and]

/-- What has been read of a word stays in front of it. -/
theorem exists_prefix_mem_wordsFrom (cs : List Char) {pending : List Char} (hne : pending ≠ []) :
    ∃ v ∈ wordsFrom pending cs, pending <+: v := by
  induction cs generalizing pending with
  | nil =>
    rw [wordsFrom]
    exact ⟨pending, mem_keep.mpr (Or.inl ⟨rfl, hne⟩), List.prefix_rfl⟩
  | cons c cs ih =>
    rw [wordsFrom]
    split
    · exact ⟨pending, mem_keep.mpr (Or.inl ⟨rfl, hne⟩), List.prefix_rfl⟩
    · have hlonger : pending ++ [c] ≠ [] := List.append_ne_nil_of_left_ne_nil hne [c]
      obtain ⟨v, hv, hprefix⟩ := ih hlonger
      exact ⟨v, hv, (List.prefix_append pending [c]).trans hprefix⟩

/-- Right behind the character that the line starts with, there is one that separates no words. -/
def joinsDash (l : List Char) : Bool := (trimStart l)[1]?.any fun c => !isBlank (unpunctuate c)

/-- Then an option line starts with a name. -/
theorem holdsName_of_joinsDash (hopens : opensBlock l = true) (hjoins : joinsDash l = true) :
    HoldsName (headWords l) := by
  rw [opensBlock, beq_iff_eq] at hopens
  obtain ⟨tail, hstart⟩ := List.head?_eq_some_iff.mp hopens
  obtain ⟨c, hc, hblank⟩ := (Option.any_eq_true _ _).mp hjoins
  rw [hstart, List.getElem?_cons_succ, ← List.head?_eq_getElem?] at hc
  obtain ⟨cs, rfl⟩ := List.head?_eq_some_iff.mp hc
  have hspace : c ≠ ' ' := by
    rintro rfl
    exact absurd hblank (by decide)
  have hcut : cut? doubleSpace ['-', c] = none := by
    rw [cut?_eq_none_iff]
    intro hinfix
    have hmem : ' ' ∈ ['-', c] := hinfix.subset (by decide)
    simp [hspace.symm] at hmem
  have hsections : (sections (trimStart l)).1 = '-' :: c :: (sections cs).1 := by
    have hborder : ['-', c].getLast? ≠ some ' ' := fun hlast => hspace (Option.some.inj hlast)
    rw [hstart]
    exact congrArg Prod.fst (sections_append_of_eq_none hcut (Or.inl hborder))
  have hwords : headWords l = wordsFrom ['-', unpunctuate c] ((sections cs).1.map unpunctuate) := by
    rw [Bool.not_eq_true'] at hblank
    rw [headWords, hsections, specWords, List.map_cons, List.map_cons, words, wordsFrom,
      if_neg (by decide), wordsFrom, if_neg (by rw [hblank]; decide)]
    rfl
  rw [hwords]
  obtain ⟨_, hv, ds, rfl⟩ := exists_prefix_mem_wordsFrom ((sections cs).1.map unpunctuate)
    (List.cons_ne_nil '-' [unpunctuate c])
  exact ⟨unpunctuate c, ds, hv⟩

/-- No option is without a name if no dash that starts a line stands by itself. -/
theorem allNamed_of_joinsDash (h : ∀ l ∈ ls, opensBlock l = true → joinsDash l = true) : AllNamed ls := by
  rintro before l following rfl hl
  have hmem : l ∈ before ++ l :: following := List.mem_append_right _ List.mem_cons_self
  obtain ⟨c, cs, hname⟩ := holdsName_of_joinsDash hl (h l hmem hl)
  exact ⟨c, cs, List.mem_append_left _ hname⟩

end Description

/-! ## What readers take up has a name -/

namespace Registry

variable {r r' r'' : Registry} {o : Opt}

/-- **`r.Gains r'`**: each entry of `r'` is an entry of `r`, or is reported under a name. -/
def Gains (r r' : Registry) : Prop := ∀ o ∈ r', o ∈ r ∨ o.name ≠ ""

theorem Gains.refl (r : Registry) : r.Gains r := fun _ ho => Or.inl ho

theorem Gains.trans (h : r.Gains r') (h' : r'.Gains r'') : r.Gains r'' := by
  intro o ho
  rcases h' o ho with ho | hname
  · exact h o ho
  · exact Or.inr hname

theorem gains_snoc (r : Registry) (h : o.name ≠ "") : r.Gains (r ++ [o]) := by
  intro p hp
  rcases List.mem_append.mp hp with hp | hp
  · exact Or.inl hp
  · rw [List.mem_singleton.mp hp]
    exact Or.inr h

end Registry

theorem longName_ne_empty {word : String} (h : WordKind.of word = .long) : longName word ≠ "" := by
  obtain ⟨⟨cs, hword⟩, -⟩ := wordKind_eq_iff.mp h
  rw [longName, ← hword]
  intro hempty
  cases String.ofList_eq_empty_iff.mp hempty

theorem shortName_ne_empty (c : Char) : shortName c ≠ "" := by
  intro hempty
  cases String.ofList_eq_empty_iff.mp hempty

theorem registry_readLongValue (mode : Mode) (o : Opt) (inline : Option String) (r : Registry)
    (rest : List String) : (readLongValue mode o inline r rest).registry = r := by
  fun_cases readLongValue mode o inline r rest with
  | case1 | case2 | case3 | case4 | case5 => rfl

theorem gains_readLong {word : String} (h : WordKind.of word = .long) (mode : Mode) (r : Registry)
    (rest : List String) : r.Gains (readLong mode r (word :: rest)).registry := by
  simp only [readLong]
  split
  · split
    · exact r.gains_snoc (longName_ne_empty h)
    · exact .refl r
  · rw [registry_readLongValue]
    exact .refl r
  · exact .refl r

theorem gains_readLetters (mode : Mode) (r : Registry) (rest : List String) (cs : List Char) :
    r.Gains (readLetters mode r rest cs).registry := by
  fun_induction readLetters mode r rest cs with
  | case2 r c cs name _ _ o ih =>
    have hname : o.name ≠ "" := shortName_ne_empty c
    exact (r.gains_snoc hname).trans ih
  | case4 r c cs name o _ _ ih => exact ih
  | case1 | case3 | case5 | case6 | case7 | case8 => exact .refl _

/-- What an invocation adds to the known options has a name, whether or not it can be read. -/
theorem gains_readInvocation (mode : Mode) (r : Registry) (words : List String) :
    r.Gains (readInvocation mode r words).registry := by
  fun_induction readInvocation mode r words with
  | case1 r | case2 r => exact .refl r
  | case3 r word rest hkind reading os _ ih => exact (gains_readLong hkind mode r rest).trans ih
  | case4 r word rest hkind => exact gains_readLong hkind mode r rest
  | case5 r word rest _ reading os _ ih => exact (gains_readLetters mode r rest _).trans ih
  | case6 r word rest => exact gains_readLetters mode r rest _
  | case7 r word rest _ ih => exact ih

/-! ## What a usage pattern holds has a name -/

/-- **`l.Named`**: if the leaf is an argument or a command, it is not reported under the empty text. -/
def Leaf.Named (l : Leaf) : Prop := l.isWordSlot = true → l.name? ≠ some ""

theorem Leaf.Named.collecting {l : Leaf} (h : l.Named) : l.collecting.Named := by
  rw [Leaf.Named, Leaf.isWordSlot_collecting, Leaf.name?_collecting]
  exact h

theorem TokenKind.wordKind_of_long {token : String} (h : TokenKind.of token = .long) :
    WordKind.of token = .long := by
  rw [TokenKind.of_word (TokenKind.marks_of_eq h) (TokenKind.ne_bar h nofun)] at h
  split at h
  · cases h
  · assumption
  · cases h
  · split at h <;> cases h

/-- **`d.Named r`**: what the draft has added to `r` has a name, and so have the arguments and commands in its
slots. -/
structure Draft.Named (r : Registry) (d : Draft) : Prop where
  gains : r.Gains d.registry
  slots : ∀ l ∈ d.slots, l.Named

/-- The draft that a step leads to is named; after a fault it is its registry that counts. -/
def Progress.Named (r : Registry) : Progress → Prop
  | more d _ => d.Named r
  | stop _ registry => r.Gains registry

namespace Draft

variable {r : Registry} {d : Draft}

theorem Named.takeLeaves (hd : d.Named r) {leaves : List Leaf} (hleaves : ∀ l ∈ leaves, l.Named)
    (rest : List String) : (d.takeLeaves leaves rest).Named r :=
  ⟨hd.gains, List.forall_mem_append.mpr ⟨hd.slots, hleaves⟩⟩

/-- The name of an argument or a command is the token it is read from. -/
theorem Named.takeToken (hd : d.Named r) {l : Leaf} {token : String} (hl : l.name? = some token)
    (htoken : token ≠ "") (rest : List String) : (d.takeLeaves [l] rest).Named r := by
  apply hd.takeLeaves
  intro m hm _
  rw [List.mem_singleton.mp hm, hl]
  exact fun hempty => htoken (Option.some.inj hempty)

theorem Named.takeOptions (hd : d.Named r) {reading : Reading} (h : d.registry.Gains reading.registry) :
    (d.takeOptions reading).Named r := by
  have hgains := hd.gains.trans h
  unfold Draft.takeOptions
  split
  · next os _ =>
    have hmoved : Draft.Named r { d with registry := reading.registry } := ⟨hgains, hd.slots⟩
    apply hmoved.takeLeaves
    intro l hl hslot
    obtain ⟨o, -, rfl⟩ := List.mem_map.mp hl
    cases hslot
  · exact hgains

theorem Named.openBracket (hd : d.Named r) (b : Bracket) (rest : List String) :
    (d.openBracket b rest).Named r := by
  unfold Draft.openBracket
  split
  · unfold takeAnyOptions
    split
    · refine ⟨hd.gains, List.forall_mem_append.mpr ⟨hd.slots, ?_⟩⟩
      intro l hl hslot
      rw [List.mem_singleton.mp hl] at hslot
      cases hslot
    · exact hd.gains
  · exact ⟨hd.gains, hd.slots⟩

theorem Named.closeBracket (hd : d.Named r) (b : Bracket) (token : String) (rest : List String) :
    (d.closeBracket b token rest).Named r := by
  unfold Draft.closeBracket
  split
  · exact hd.gains
  · split
    · exact ⟨hd.gains, hd.slots⟩
    · exact hd.gains

/-- One step of reading a usage pattern. -/
theorem Named.advance (hd : d.Named r) {token : String} (htoken : token ≠ "") (rest : List String) :
    (d.advance token rest).Named r := by
  unfold Draft.advance
  split
  · exact hd.openBracket ..
  · exact hd.closeBracket ..
  · exact ⟨hd.gains, hd.slots⟩
  · next hkind => exact hd.takeOptions (gains_readLong (TokenKind.wordKind_of_long hkind) _ _ rest)
  · exact hd.takeOptions (gains_readLetters _ _ rest _)
  · exact hd.takeToken rfl htoken rest
  · exact hd.takeToken rfl htoken rest

/-- A step reads on among the tokens that there are. -/
theorem rest_subset_of_advance {d d' : Draft} {token : String} {rest rest' : List String}
    (h : d.advance token rest = .more d' rest') : rest' ⊆ token :: rest := by
  have hturn := d.turn_advance token rest
  rw [h] at hturn
  cases hturn with
  | opening => exact List.subset_cons_self ..
  | shorthand hskips =>
    intro v hv
    exact List.mem_append_right ["[", "options", "]"] (hskips.subset hv)
  | closing hskips | word _ hskips => exact List.subset_cons_of_subset _ hskips.subset
  | options _ htakes hskips =>
    apply List.subset_cons_of_subset
    rcases htakes with hrest | ⟨v, hrest, -⟩
    · rw [← hrest]
      exact hskips.subset
    · rw [hrest]
      exact List.subset_cons_of_subset _ hskips.subset

/-- A whole run over tokens that are not empty, to its end or to a fault. -/
theorem Named.run (hd : d.Named r) {tokens : List String} (htokens : ∀ token ∈ tokens, token ≠ "") :
    r.Gains (d.run tokens).registry ∧
      ∀ t, (d.run tokens).outcome = .ok t → ∀ l ∈ t.slots, l.Named := by
  fun_induction Draft.run d tokens with
  | case1 d =>
    unfold finish
    split
    · refine ⟨hd.gains, ?_⟩
      intro t ht
      obtain rfl := Except.ok.inj ht
      exact hd.slots
    · refine ⟨hd.gains, ?_⟩
      intro t ht
      cases ht
  | case2 d token rest d' rest' hadvance ih =>
    have hstep := hd.advance (htokens token List.mem_cons_self) rest
    rw [hadvance] at hstep
    exact ih hstep fun v hv => htokens v (rest_subset_of_advance hadvance hv)
  | case3 d token rest failure registry hadvance =>
    have hstep := hd.advance (htokens token List.mem_cons_self) rest
    rw [hadvance] at hstep
    refine ⟨hstep, ?_⟩
    intro t ht
    cases ht

end Draft

theorem named_parsePattern (r : Registry) (source : String) :
    r.Gains (parsePattern r source).registry ∧
      ∀ t, (parsePattern r source).outcome = .ok t → ∀ l ∈ t.slots, l.Named := by
  have hstart : (Draft.start .grammar r).Named r := ⟨.refl r, fun _ hl => absurd hl List.not_mem_nil⟩
  exact hstart.run fun _ htoken => ne_empty_of_mem_tokenize htoken

/-- The normal form has the names of the slots, and no others. -/
theorem Tree.empty_notMem_slotNames_normalize {t : Tree} (hrange : t.InRange) (h : ∀ l ∈ t.slots, l.Named) :
    "" ∉ t.normalize.slotNames := by
  intro hempty
  obtain ⟨l, hl, hname⟩ := List.mem_filterMap.mp hempty
  obtain ⟨hl, hslot⟩ := List.mem_filter.mp hl
  obtain ⟨i, hi, rfl⟩ := List.mem_map.mp hl
  have hleaf : t.intern.leafAt i ∈ t.leaves :=
    List.mem_eraseDups.mp (leafAt_mem_slots (t.inRange_intern i hi))
  obtain ⟨j, hj, hleafAt⟩ := List.mem_map.mp hleaf
  have hnamed : (t.intern.leafAt i).Named := by
    rw [← hleafAt]
    exact h _ (leafAt_mem_slots (hrange j hj))
  have hmarked : (t.normalize.leafAt i).Named := by
    rw [leafAt_normalize]
    split
    · exact hnamed.collecting
    · exact hnamed
  exact hmarked hslot hname

/-! ## Which help texts name all their options -/

namespace Registry

variable {doc : String} {known : Registry}

/-- Of options that come from a help text and from readers, those with a name are reported under one. -/
theorem name_ne_empty_iff (hgains : (ofHelp doc).Gains known) {o : Opt} (ho : o ∈ known) :
    o.name ≠ "" ↔ o.HasName := by
  constructor
  · exact Opt.hasName_of_name_ne_empty
  · intro hname
    rcases hgains o ho with hdescribed | hne
    · obtain ⟨text, -, rfl⟩ := List.mem_map.mp hdescribed
      exact name_parse_ne_empty hname
    · exact hne

/-- Whatever readers have taken up, it is the help text that decides if all options have names. -/
theorem forall_hasName_iff_allNamed (hsubset : ofHelp doc ⊆ known) (hgains : (ofHelp doc).Gains known) :
    (∀ o ∈ known, o.HasName) ↔ AllNamed (lines doc.toList) := by
  rw [← forall_hasName_iff]
  constructor
  · exact fun hall o ho => hall o (hsubset ho)
  · intro hall o ho
    rcases hgains o ho with hdescribed | hne
    · exact hall o hdescribed
    · exact Opt.hasName_of_name_ne_empty hne

end Registry

namespace Interface

variable {doc : String} {settings : Settings} {i : Interface}

/-- The keys that are reported are not empty exactly if all options have names that are known after the
invocation was read. -/
theorem keys_ne_empty_iff (hslots : "" ∉ i.tree.slotNames) {words : List String} {b : Bindings}
    (h : i.parse words = .ok b) :
    (∀ key ∈ b.keys, key ≠ "") ↔
      ∀ o ∈ (readInvocation i.settings.mode i.options words).registry, o.name ≠ "" := by
  obtain ⟨leaves, hleaves, hmatched, -, rfl⟩ := exists_match_of_parse h
  have hread := grounded_readInvocation i.settings.mode i.options words
  have hkeys := i.keys_assembled
    (fun o ho => hread.listed leaves hleaves o (mem_occurrences.mp ho))
    (Tree.names_collected_subset (given_of_readInvocation hleaves) hmatched)
  rw [hkeys]
  constructor
  · intro hall o ho
    exact hall o.name (List.mem_eraseDups.mpr (List.mem_append_left _ (List.mem_map_of_mem ho)))
  · intro hall key hkey
    rcases List.mem_append.mp (List.mem_eraseDups.mp hkey) with hoption | hslot
    · obtain ⟨o, ho, rfl⟩ := List.mem_map.mp hoption
      exact hall o ho
    · rintro rfl
      exact hslots hslot

/-- **Which help texts give an option without a name.** If an interface is built from a help text, then all
its options have names exactly if each option line of the text has one, in front of its double space or among
its strays. Under the same condition, and under no other, no invocation that yields bindings reports the empty
text as a key. The condition holds if no dash that starts a line stands by itself. -/
theorem named_iff (h : ofHelp doc settings = .ok i) :
    ((∀ o ∈ i.options, o.HasName) ↔ AllNamed (lines doc.toList)) ∧
    (∀ words b, i.parse words = .ok b →
      ((∀ key ∈ b.keys, key ≠ "") ↔ AllNamed (lines doc.toList))) ∧
    ((∀ l ∈ lines doc.toList, opensBlock l = true → joinsDash l = true) → AllNamed (lines doc.toList)) := by
  rcases ofHelp_cases doc settings with ⟨text, hfault⟩ | ⟨j, hj, hbuilt⟩
  · rw [hfault] at h
    cases h
  obtain rfl := Except.ok.inj (hj.symm.trans h)
  obtain ⟨t, hread, hrange, -, htree⟩ := hbuilt.tree_read
  obtain ⟨hgains, hnamed⟩ := named_parsePattern (Registry.ofHelp doc) (Usage.formal j.usage)
  have hgrows := (grows_parsePattern (Registry.ofHelp doc) (Usage.formal j.usage)).1
  rw [hread] at hgains hnamed hgrows
  refine ⟨Registry.forall_hasName_iff_allNamed hgrows.subset hgains, ?_, allNamed_of_joinsDash⟩
  intro words b hb
  have hslots : "" ∉ j.tree.slotNames := by
    rw [htree]
    exact Tree.empty_notMem_slotNames_normalize hrange (hnamed t rfl)
  have hinvocation := (grounded_readInvocation j.settings.mode j.options words).grows
  have hsubset := List.Subset.trans hgrows.subset hinvocation.subset
  have hknown := hgains.trans (gains_readInvocation j.settings.mode j.options words)
  rw [keys_ne_empty_iff hslots hb, ← Registry.forall_hasName_iff_allNamed hsubset hknown]
  exact forall₂_congr fun o ho => Registry.name_ne_empty_iff hknown ho

/-- One option is described on a line that starts with its name, the other is met in the pattern. -/
theorem named_iff_sample :
    let doc := "usage: m [-q]\n\n-v"
    let i : Interface :=
      { doc := doc
        usage := "usage: m [-q]"
        options := [.ofShort "-v", .ofShort "-q"]
        tree := ⟨[.option (.ofShort "-q")], .required [.optional [.leaf 0]]⟩
        settings := .default }
    let b : Bindings := ⟨[("-v", .bool false), ("-q", .bool true)]⟩
    ofHelp doc .default = .ok i ∧ i.parse ["-q"] = .ok b ∧
      (∀ l ∈ lines doc.toList, opensBlock l = true → joinsDash l = true) ∧
      (∀ o ∈ i.options, o.HasName) ∧ ∀ key ∈ b.keys, key ≠ "" := by
  intro doc i b
  have hi : ofHelp doc .default = .ok i := by cbv
  have hb : i.parse ["-q"] = .ok b := by cbv
  have hjoins : ∀ l ∈ lines doc.toList, opensBlock l = true → joinsDash l = true := by decide
  obtain ⟨hoptions, hkeys, hnamed⟩ := named_iff hi
  exact ⟨hi, hb, hjoins, hoptions.mpr (hnamed hjoins), (hkeys ["-q"] b hb).mpr (hnamed hjoins)⟩

/-- An item of a list describes an option that has no name, and the empty text is reported as a key. -/
theorem nameless_option_is_reported :
    let doc := "usage: prog\n\n- item"
    let o : Opt := ⟨none, none, 1, .bool false⟩
    let i : Interface := ⟨doc, "usage: prog", [o], .empty, .default⟩
    ofHelp doc .default = .ok i ∧ o ∈ i.options ∧ ¬ o.HasName ∧
      ∃ b, i.parse [] = .ok b ∧ b.entries = [("", .bool false)] ∧ ¬ ∀ key ∈ b.keys, key ≠ "" := by
  intro doc o i
  have hi : ofHelp doc .default = .ok i := by cbv
  have hb : i.parse [] = .ok ⟨[("", .bool false)]⟩ := by cbv
  refine ⟨hi, List.mem_singleton_self o, ?_, _, hb, rfl, ?_⟩
  · rintro (hshort | hlong)
    · exact hshort rfl
    · exact hlong rfl
  · exact fun hall => hall "" (List.mem_singleton_self "") rfl

end Interface

end Synopsis
