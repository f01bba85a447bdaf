import Synopsis.Proofs.Printing

/-!
# Reading what was printed

The reader is followed along a tree that was written out: `Reads` says that the tokens of a part, wherever
they stand, add this part to the level under way and its leaves to the slots, and `ReadsAtom` the same where an
ellipsis may follow. One lemma for each way to build an `Item` says that its tokens are read so.

Main statement: reading gives back what was printed, slot for slot, and registers nothing
(`parsePattern_print`). A command must have a name, since no token is empty (`parsePattern_print_nameless`).
-/

namespace Synopsis

/-! ## Leaves are read back -/

/-- An entry is the only one with its long name, if no two entries share one. -/
theorem Registry.Distinct.resolves {r : Registry} (hr : r.Distinct) {o : Opt} {long : String}
    (ho : o ∈ r) (hlong : o.long = some long) : r.Resolves long o := by
  obtain ⟨before, after, rfl⟩ := List.append_of_mem ho
  refine Or.inl ⟨before, after, rfl, hlong, ?_⟩
  obtain ⟨-, hafter, hbefore⟩ := List.pairwise_append.mp hr
  intro e he hsame
  rcases List.mem_append.mp he with he | he
  · exact (hbefore e he o List.mem_cons_self).2 long hsame hlong
  · exact (List.rel_of_pairwise_cons hafter he).2 long hlong hsame

/-- A name that stands for one option is read as that option, in any mode. -/
theorem readLong_of_resolves (mode : Mode) {r : Registry} {word name : String}
    {value : Option String} {o : Opt} (hcut : CutsInto word name value) (ho : r.Resolves name o)
    (rest : List String) : readLong mode r (word :: rest) = readLongValue mode o value r rest := by
  obtain ⟨rfl, rfl⟩ := cutsInto_iff.mp hcut
  simp only [readLong, Registry.longCandidates_eq_singleton_iff.mpr ho]

namespace Draft

/-- The token of a leaf is read as that leaf. -/
theorem advance_written {d : Draft} (hr : d.registry.WellNamed) {l : Leaf}
    (hl : l.Writable d.registry) (rest : List String) :
    d.advance l.written rest = d.takeLeaves [l] rest := by
  have hkind := hl.tokenKind hr
  rw [advance, hkind]
  cases hl with
  | placeholder => rfl
  | keyword => rfl
  | @flag o long ho hlong _ hequal harity =>
    have hcut : CutsInto long long none := ⟨hequal, Or.inl rfl⟩
    have hvalue : readLongValue d.mode o none d.registry rest =
        .ok [o.given (.bool true)] d.registry rest := by
      simp [readLongValue, harity]
    simp only [Leaf.written_flag hlong,
      readLong_of_resolves _ hcut (hr.distinct.resolves ho hlong), hvalue]
    rfl
  | @valued o long v ho hlong _ hequal harity _ hne =>
    have hcut : CutsInto (long ++ "=" ++ v) long (some v) := ⟨hequal, hne, rfl⟩
    have hvalue : readLongValue d.mode o (some v) d.registry rest =
        .ok [o.given (.str v)] d.registry rest := by
      simp [readLongValue, harity]
    simp only [Leaf.written_valued hlong,
      readLong_of_resolves _ hcut (hr.distinct.resolves ho hlong), hvalue]
    rfl

end Draft

/-! ## Parts are read back -/

/-- What a step leads to in the end. -/
def Progress.conclude : Progress → Parsed
  | more d rest => d.run rest
  | stop failure registry => ⟨.error failure, registry⟩

namespace Draft

theorem run_cons (d : Draft) (token : String) (rest : List String) :
    d.run (token :: rest) = (d.advance token rest).conclude := by
  rw [run]
  split
  · next h => rw [h]; rfl
  · next h => rw [h]; rfl

theorem conclude_takeAtoms {rest : List String} (hrest : rest.head? ≠ some "...") (d : Draft)
    (atoms : List (Pattern Nat)) :
    (d.takeAtoms atoms rest).conclude = (d.add atoms).run rest := by
  have hatoms : withEllipsis atoms rest = (atoms, rest) := by
    cases rest with
    | nil => rfl
    | cons token rest => exact if_neg fun h => hrest (by rw [h]; rfl)
  rw [takeAtoms, hatoms]
  rfl

theorem advance_opening (d : Draft) (b : Bracket) (rest : List String) :
    d.advance b.opening rest = d.openBracket b rest := by
  cases b <;> rfl

/-- An opening bracket starts a level if the word of the shorthand does not follow. -/
theorem openBracket_eq_more {d : Draft} {b : Bracket} {rest : List String}
    (h : b = .square → rest.head? ≠ some "options") : d.openBracket b rest = .more (d.push b) rest := by
  unfold openBracket
  split
  · exact absurd rfl (h rfl)
  · rfl

theorem advance_closing (d : Draft) (b : Bracket) (rest : List String) :
    d.advance b.closing rest = d.closeBracket b b.closing rest := by
  cases b <;> rfl

/-- The draft with the first slots of a tree. -/
def filled (d : Draft) (t : Tree) (n : Nat) : Draft := { d with slots := t.slots.take n }

theorem filled_add (d : Draft) (t : Tree) (n m : Nat) (ps qs : List (Pattern Nat)) :
    (((d.filled t n).add ps).filled t m).add qs = (d.filled t m).add (ps ++ qs) := by
  simp only [filled, add, Level.add, List.append_assoc]

/-- **`d.Before r t n`**: the draft has the options of `r`, and as its slots the first `n` of the tree. -/
structure Before (r : Registry) (t : Tree) (n : Nat) (d : Draft) : Prop where
  registry : d.registry = r
  slots : d.slots = t.slots.take n

theorem Before.filled_add_nil {r : Registry} {t : Tree} {n : Nat} {d : Draft}
    (h : d.Before r t n) : (d.filled t n).add [] = d := by
  rw [filled, ← h.slots, add, Level.add, List.append_nil]

/-- The leaf in the next slot of the tree goes there in the draft, too. -/
theorem Before.next {r : Registry} {t : Tree} {n : Nat} {d : Draft} (h : d.Before r t n) {l : Leaf}
    (hl : t.slots[n]? = some l) :
    d.withSlots [l] = d.filled t (n + 1) ∧ d.placesFor [l] = [.leaf n] := by
  obtain ⟨hn, rfl⟩ := List.getElem?_eq_some_iff.mp hl
  have hlength : d.slots.length = n := by
    rw [h.slots, List.length_take]
    omega
  constructor
  · rw [withSlots, filled, h.slots, List.take_append_getElem hn]
  · rw [placesFor, hlength]
    rfl

end Draft

/-- **`Numbered n is`**: the numbers count up from `n`. -/
def Numbered (n : Nat) (is : List Nat) : Prop := is = List.range' n is.length

theorem numbered_append {n : Nat} {is js : List Nat} (h : Numbered n (is ++ js)) :
    Numbered n is ∧ Numbered (n + is.length) js := by
  obtain ⟨k, hk, his, hjs⟩ := List.range'_eq_append_iff.mp h.symm
  have hlength : is.length = k := by rw [his, List.length_range']
  have hlength' : js.length = (is ++ js).length - k := by
    rw [List.length_append]
    omega
  constructor
  · rw [Numbered, hlength]
    exact his
  · rw [Numbered, hlength, hlength']
    rw [Nat.mul_one] at hjs
    exact hjs

namespace Tree

variable {r : Registry} {t : Tree}

/-- **`ReadsAtom r t p`**: the tokens of `p`, wherever they stand, are taken up as `p` with its leaves in
the next slots. An ellipsis behind them counts for `p`. -/
def ReadsAtom (r : Registry) (t : Tree) (p : Pattern Nat) : Prop :=
  ∀ (d : Draft) (n : Nat), d.Before r t n → Numbered n p.flat → ∀ rest,
    d.run (p.written t.tokenAt ++ rest) =
      ((d.filled t (n + p.flat.length)).takeAtoms [p] rest).conclude

/-- **`Reads r t ps tokens`**: the tokens, wherever no ellipsis stands behind them, add the patterns to
the level under way and their leaves to the slots. -/
def Reads (r : Registry) (t : Tree) (ps : List (Pattern Nat)) (tokens : List String) : Prop :=
  ∀ (d : Draft) (n : Nat), d.Before r t n → Numbered n (Pattern.flatAll ps) → ∀ rest : List String,
    rest.head? ≠ some "..." →
    d.run (tokens ++ rest) = ((d.filled t (n + (Pattern.flatAll ps).length)).add ps).run rest

theorem flatAll_singleton (p : Pattern Nat) : Pattern.flatAll [p] = p.flat := by
  rw [Pattern.flatAll, Pattern.flatAll, List.append_nil]

theorem ReadsAtom.reads {p : Pattern Nat} (h : ReadsAtom r t p) :
    Reads r t [p] (p.written t.tokenAt) := by
  intro d n hd hnumbered rest hrest
  rw [flatAll_singleton] at hnumbered ⊢
  rw [h d n hd hnumbered, Draft.conclude_takeAtoms hrest]

theorem ReadsAtom.reads_repeated {p : Pattern Nat} (h : ReadsAtom r t p) :
    Reads r t [.oneOrMore p] ((Pattern.oneOrMore p).written t.tokenAt) := by
  intro d n hd hnumbered rest _
  rw [flatAll_singleton] at hnumbered ⊢
  rw [Pattern.written, List.append_assoc]
  exact h d n hd hnumbered _

theorem readsAtom_leaf (hr : r.WellNamed) {i : Nat} {l : Leaf}
    (hi : t.slots[i]? = some l) (hl : l.Writable r) : ReadsAtom r t (.leaf i) := by
  intro d n hd hnumbered rest
  obtain rfl : i = n := by simpa [Numbered, Pattern.flat] using hnumbered
  obtain ⟨hslots, hplaces⟩ := hd.next hi
  obtain ⟨rfl, -⟩ := hd
  rw [Pattern.written, tokenAt_of_slot hi, List.cons_append, List.nil_append, Draft.run_cons,
    Draft.advance_written hr hl, Draft.takeLeaves, hslots, hplaces]
  rfl

theorem readsAtom_shorthand {i : Nat} (hi : t.slots[i]? = some .anyOptions) :
    ReadsAtom r t (.optional [.leaf i]) := by
  intro d n hd hnumbered rest
  obtain rfl : i = n := by
    simpa [Numbered, Pattern.flat, Pattern.flatAll] using hnumbered
  obtain ⟨hslots, hplaces⟩ := hd.next hi
  have hwritten : (Pattern.optional [.leaf i]).written t.tokenAt = ["[", "options", "]"] := by
    show ["[", t.tokenAt i, "]"] = _
    rw [tokenAt_of_slot hi]
    rfl
  rw [hwritten, List.cons_append, Draft.run_cons]
  show ((d.withSlots [.anyOptions]).takeAtoms [.optional (d.placesFor [.anyOptions])] rest).conclude
    = _
  rw [hslots, hplaces]
  rfl

/-! ### Sequences -/

theorem flatAll_append (ps qs : List (Pattern Nat)) :
    Pattern.flatAll (ps ++ qs) = Pattern.flatAll ps ++ Pattern.flatAll qs := by
  simp only [Pattern.flatAll_eq_flatMap, List.flatMap_append]

/-- What is read one after the other is read as a whole. -/
theorem Reads.append {ps qs : List (Pattern Nat)} {tokens tokens' : List String}
    (h : Reads r t ps tokens) (h' : Reads r t qs tokens')
    (hstarts : ∀ rest : List String, rest.head? ≠ some "..." →
      (tokens' ++ rest).head? ≠ some "...") : Reads r t (ps ++ qs) (tokens ++ tokens') := by
  intro d n hd hnumbered rest hrest
  rw [flatAll_append] at hnumbered ⊢
  obtain ⟨hps, hqs⟩ := numbered_append hnumbered
  have hd' : ((d.filled t (n + (Pattern.flatAll ps).length)).add ps).Before r t
      (n + (Pattern.flatAll ps).length) := ⟨hd.registry, rfl⟩
  rw [List.append_assoc, h d n hd hps _ (hstarts rest hrest), h' _ _ hd' hqs rest hrest,
    List.length_append, Nat.add_assoc, Draft.filled_add]

/-- **`Starts tokens`**: the tokens start neither with an ellipsis nor with the word of the shorthand, so
that they may stand behind an atom or an opening bracket. -/
def Starts (tokens : List String) : Prop :=
  tokens.head? ≠ some "..." ∧ tokens.head? ≠ some "options"

theorem starts_cons {token : String} (h : token ≠ "..." ∧ token ≠ "options") (rest : List String) :
    Starts (token :: rest) :=
  ⟨fun heq => h.1 (Option.some.inj heq), fun heq => h.2 (Option.some.inj heq)⟩

theorem flat_group (b : Bracket) (ps : List (Pattern Nat)) :
    (b.group ps).flat = Pattern.flatAll ps := by
  cases b <;> rfl

theorem Item.starts (hr : r.WellNamed) {p : Pattern Nat} (h : t.Item r p) (rest : List String) :
    Starts (p.written t.tokenAt ++ rest) := by
  have hgroup : ∀ (b : Bracket) (ps : List (Pattern Nat)) (rest : List String),
      Starts ((b.group ps).written t.tokenAt ++ rest) := by
    intro b ps rest
    rw [written_group, List.cons_append]
    exact starts_cons (by cases b <;> decide) _
  induction h generalizing rest with
  | @leaf i l hi hl =>
    rw [Pattern.written, tokenAt_of_slot hi]
    exact starts_cons ⟨hl.clean.ne_ellipsis, hl.written_ne_options hr⟩ _
  | shorthand hi => exact hgroup .square _ _
  | sequence b _ _ => exact hgroup b _ _
  | choice b _ _ _ => exact hgroup b _ _
  | repeated _ _ ih =>
    rw [Pattern.written, List.append_assoc]
    exact ih _

theorem starts_writtenAll (hr : r.WellNamed) {ps : List (Pattern Nat)} (h : ∀ p ∈ ps, t.Item r p)
    {rest : List String} (hrest : Starts rest) :
    Starts (Pattern.writtenAll t.tokenAt ps ++ rest) := by
  cases ps with
  | nil => exact hrest
  | cons p ps =>
    rw [Pattern.writtenAll, List.append_assoc]
    exact (h p List.mem_cons_self).starts hr _

theorem starts_writtenChoice (hr : r.WellNamed) {ps : List (Pattern Nat)} (hps : ps ≠ [])
    (h : ∀ p ∈ ps, t.Item r p) (rest : List String) :
    Starts (Pattern.writtenChoice t.tokenAt ps ++ rest) := by
  match ps, hps with
  | [p], _ => exact (h p List.mem_cons_self).starts hr _
  | p :: q :: ps, _ =>
    rw [Pattern.writtenChoice, List.append_assoc]
    exact (h p List.mem_cons_self).starts hr _

theorem reads_writtenAll (hr : r.WellNamed) {ps : List (Pattern Nat)} (hitems : ∀ p ∈ ps, t.Item r p)
    (h : ∀ p ∈ ps, Reads r t [p] (p.written t.tokenAt)) :
    Reads r t ps (Pattern.writtenAll t.tokenAt ps) := by
  induction ps with
  | nil =>
    intro d n hd _ rest _
    rw [Pattern.flatAll, List.length_nil, Nat.add_zero, hd.filled_add_nil]
    rfl
  | cons p ps ih =>
    have hitems' : ∀ q ∈ ps, t.Item r q := fun q hq => hitems q (List.mem_cons_of_mem p hq)
    have hps := ih hitems' fun q hq => h q (List.mem_cons_of_mem p hq)
    refine (h p List.mem_cons_self).append hps ?_
    intro rest hrest
    cases ps with
    | nil => exact hrest
    | cons q ps =>
      rw [Pattern.writtenAll, List.append_assoc]
      exact ((hitems' q List.mem_cons_self).starts hr _).1

/-! ### Choices -/

/-- The alternatives of a choice are those that bars have ended and the one under way. -/
theorem run_writtenChoice {ps : List (Pattern Nat)} (hps : ps ≠ [])
    (h : ∀ p ∈ ps, Reads r t [p] (p.written t.tokenAt)) {d : Draft} {n : Nat}
    (hd : d.Before r t n) (hnumbered : Numbered n (Pattern.flatAll ps))
    (hcurrent : d.level.current = []) {rest : List String} (hrest : rest.head? ≠ some "...") :
    ∃ l : Level, l.finished ++ [l.current] = d.level.finished ++ ps.map ([·]) ∧
      d.run (Pattern.writtenChoice t.tokenAt ps ++ rest) =
        { d.filled t (n + (Pattern.flatAll ps).length) with level := l }.run rest := by
  match ps, hps with
  | [p], _ =>
    refine ⟨d.level.add [p], ?_, h p List.mem_cons_self d n hd hnumbered rest hrest⟩
    rw [Level.add, hcurrent]
    rfl
  | p :: q :: ps, _ =>
    rw [Pattern.flatAll] at hnumbered ⊢
    obtain ⟨hp, hqs⟩ := numbered_append hnumbered
    -- the first alternative is read, and the bar ends it
    let d' : Draft := { d.filled t (n + p.flat.length) with
      level := (d.level.add [p]).startAlternative }
    have hread : d.run (p.written t.tokenAt ++ "|" ::
        (Pattern.writtenChoice t.tokenAt (q :: ps) ++ rest)) =
        d'.run (Pattern.writtenChoice t.tokenAt (q :: ps) ++ rest) := by
      have hfirst := h p List.mem_cons_self d n hd (by rwa [flatAll_singleton])
        ("|" :: (Pattern.writtenChoice t.tokenAt (q :: ps) ++ rest)) (starts_cons (by decide) _).1
      rw [hfirst, flatAll_singleton, Draft.run_cons]
      rfl
    obtain ⟨l, hl, hrun⟩ := run_writtenChoice (List.cons_ne_nil q ps)
      (fun a ha => h a (List.mem_cons_of_mem p ha)) (d := d') ⟨hd.registry, rfl⟩ hqs rfl hrest
    refine ⟨l, ?_, ?_⟩
    · rw [hl]
      show d.level.finished ++ [d.level.current ++ [p]] ++ _ = _
      rw [hcurrent, List.append_assoc]
      rfl
    · rw [Pattern.writtenChoice, List.append_assoc, List.cons_append, hread, hrun,
        List.length_append, Nat.add_assoc]
      rfl

end Tree

/-- A level whose alternatives are single patterns closes as the choice between them. -/
theorem Level.close_choice {l : Level} {ps : List (Pattern Nat)} (hlength : 2 ≤ ps.length)
    (h : l.finished ++ [l.current] = ps.map ([·])) : l.close = [.either ps] := by
  have hfinished : l.finished ≠ [] := by
    intro hnil
    have hlengths := congrArg List.length h
    rw [hnil, List.nil_append, List.length_singleton, List.length_map] at hlengths
    omega
  have halternatives : (l.finished ++ [l.current]).flatMap asAlternative = ps := by
    rw [h, List.flatMap_map]
    exact List.flatMap_singleton' ps
  obtain ⟨p, q, ps, rfl⟩ : ∃ p q qs, ps = p :: q :: qs := by
    match ps, hlength with
    | p :: q :: qs, _ => exact ⟨p, q, qs, rfl⟩
  unfold close
  split
  · next hnil => exact absurd hnil hfinished
  · rw [halternatives]

namespace Tree

variable {r : Registry} {t : Tree}

/-! ### Groups -/

/-- **`ReadsBody r t ps`**: the tokens of `ps`, read on a level of their own, make a level that closes as
`ps`. -/
def ReadsBody (r : Registry) (t : Tree) (ps : List (Pattern Nat)) : Prop :=
  ∀ (d : Draft) (n : Nat), d.Before r t n → Numbered n (Pattern.flatAll ps) → d.level = .empty →
    ∀ rest : List String, rest.head? ≠ some "..." → ∃ l : Level, l.close = ps ∧
      d.run (Pattern.writtenAll t.tokenAt ps ++ rest) =
        { d.filled t (n + (Pattern.flatAll ps).length) with level := l }.run rest

theorem Reads.body {ps : List (Pattern Nat)} (h : Reads r t ps (Pattern.writtenAll t.tokenAt ps)) :
    ReadsBody r t ps := by
  intro d n hd hnumbered hlevel rest hrest
  refine ⟨d.level.add ps, ?_, h d n hd hnumbered rest hrest⟩
  rw [hlevel]
  rfl

theorem readsBody_choice {ps : List (Pattern Nat)} (hlength : 2 ≤ ps.length)
    (h : ∀ p ∈ ps, Reads r t [p] (p.written t.tokenAt)) : ReadsBody r t [.either ps] := by
  intro d n hd hnumbered hlevel rest hrest
  have hps : ps ≠ [] := List.ne_nil_of_length_pos (by omega)
  have hflat : Pattern.flatAll [.either ps] = Pattern.flatAll ps := flatAll_singleton _
  have hwritten : Pattern.writtenAll t.tokenAt [.either ps] =
      Pattern.writtenChoice t.tokenAt ps := List.append_nil _
  rw [hflat] at hnumbered ⊢
  rw [hwritten]
  obtain ⟨l, hl, hrun⟩ := run_writtenChoice hps h hd hnumbered (by rw [hlevel]; rfl) hrest
  refine ⟨l, Level.close_choice hlength ?_, hrun⟩
  rw [hl, hlevel]
  rfl

/-- Brackets make an atom of what they hold. -/
theorem ReadsBody.group {ps : List (Pattern Nat)} (h : ReadsBody r t ps)
    (hstarts : ∀ rest, Starts rest → Starts (Pattern.writtenAll t.tokenAt ps ++ rest))
    (b : Bracket) : ReadsAtom r t (b.group ps) := by
  intro d n hd hnumbered rest
  rw [flat_group] at hnumbered ⊢
  have hclosing : Starts (b.closing :: rest) := starts_cons (by cases b <;> decide) rest
  obtain ⟨l, hl, hrun⟩ := h (d.push b) n ⟨hd.registry, hd.slots⟩ hnumbered rfl
    (b.closing :: rest) hclosing.1
  rw [written_group, List.cons_append, List.append_assoc, Draft.run_cons, Draft.advance_opening,
    List.cons_append, List.nil_append, Draft.openBracket_eq_more fun _ => (hstarts _ hclosing).2]
  show (d.push b).run _ = _
  rw [hrun, Draft.run_cons, Draft.advance_closing, ← hl]
  exact congrArg Progress.conclude (if_pos rfl)

/-- Every item is read back, and one that is not repeated also before an ellipsis. -/
theorem Item.reads (hr : r.WellNamed) {p : Pattern Nat} (h : t.Item r p) :
    Reads r t [p] (p.written t.tokenAt) ∧ ((∀ q, p ≠ .oneOrMore q) → ReadsAtom r t p) := by
  have hatom : ∀ {p}, ReadsAtom r t p →
      Reads r t [p] (p.written t.tokenAt) ∧ ((∀ q, p ≠ .oneOrMore q) → ReadsAtom r t p) :=
    fun hp => ⟨hp.reads, fun _ => hp⟩
  induction h with
  | leaf hi hl => exact hatom (readsAtom_leaf hr hi hl)
  | shorthand hi => exact hatom (readsAtom_shorthand hi)
  | sequence b hitems ih =>
    have hreads := reads_writtenAll hr hitems fun p hp => (ih p hp).1
    exact hatom (hreads.body.group (fun _ => starts_writtenAll hr hitems) b)
  | @choice b ps hlength hitems ih =>
    have hps : ps ≠ [] := List.ne_nil_of_length_pos (by omega)
    have hbody := readsBody_choice hlength fun p hp => (ih p hp).1
    refine hatom (hbody.group ?_ b)
    intro rest _
    rw [Pattern.writtenAll, Pattern.writtenAll, List.append_nil]
    exact starts_writtenChoice hr hps hitems rest
  | repeated hp _ ih =>
    refine ⟨(ih.2 hp).reads_repeated, ?_⟩
    intro hne
    exact absurd rfl (hne _)

/-- What a required group holds is read back also without brackets around it. -/
theorem Item.body (hr : r.WellNamed) {p : Pattern Nat} (h : t.Item r p) {ps : List (Pattern Nat)}
    (hp : p = .required ps) : ReadsBody r t ps := by
  cases h with
  | leaf => cases hp
  | shorthand => cases hp
  | sequence b hitems =>
    cases b with
    | round =>
      obtain rfl := Pattern.required.inj hp
      exact (reads_writtenAll hr hitems fun q hq => ((hitems q hq).reads hr).1).body
    | square => cases hp
  | choice b hlength hitems =>
    cases b with
    | round =>
      obtain rfl := Pattern.required.inj hp
      exact readsBody_choice hlength fun q hq => ((hitems q hq).reads hr).1
    | square => cases hp
  | repeated => cases hp

/-- The tokens of a well-formed tree are read as that tree, however they are set apart. -/
theorem WellFormed.parsePattern_eq (hr : r.WellNamed) (ht : t.WellFormed r) {source : String}
    (hsource : tokenize source = t.written) : parsePattern r source = ⟨.ok t, r⟩ := by
  obtain ⟨ps, hroot⟩ := ht.required
  have hflat : Pattern.flatAll ps = List.range t.slots.length := by
    rw [← ht.numbered, hroot]
    rfl
  have hnumbered : Numbered 0 (Pattern.flatAll ps) := by
    rw [Numbered, hflat, List.length_range, List.range_eq_range']
  obtain ⟨l, hl, hrun⟩ := ht.item.body hr hroot (Draft.start .grammar r) 0 ⟨rfl, rfl⟩ hnumbered
    rfl [] (by decide)
  have hslots : t.slots.take (0 + (Pattern.flatAll ps).length) = t.slots := by
    rw [hflat, List.length_range, Nat.zero_add, List.take_length]
  rw [List.append_nil] at hrun
  rw [parsePattern_eq_run, hsource, written, hroot, Pattern.children, hrun, Draft.run]
  show (⟨.ok ⟨t.slots.take _, .required l.close⟩, r⟩ : Parsed) = _
  rw [hslots, hl, ← hroot]

/-- **Reading gives back what was printed.** Over a registry in which no two entries have a name in common
and each long name is two dashes and more, a well-formed tree in which each command has a name is printed as a
pattern that is read as this very tree, slots and numbers included, and registers nothing. So is any other
text that is cut into the same tokens. -/
theorem parsePattern_print {r : Registry} {t : Tree} (hr : r.WellNamed) (ht : t.WellFormed r)
    (hnames : .keyword "" ∉ t.slots) :
    parsePattern r t.print = ⟨.ok t, r⟩ ∧
      ∀ source, tokenize source = t.written → parsePattern r source = ⟨.ok t, r⟩ := by
  exact ⟨ht.parsePattern_eq hr (ht.tokenize_print hr hnames),
    fun source hsource => ht.parsePattern_eq hr hsource⟩

/-- The tree of `(--to=a.b [options]...) | [N | [go --all] | ()] | --...`. -/
def errand : Tree where
  slots := [.option ⟨some "-t", some "--to", 1, .str "a.b"⟩, .anyOptions, .placeholder "N",
    .keyword "go", .option ⟨none, some "--all", 0, .bool true⟩, .keyword "--"]
  root := .required [.either [
    .required [.leaf 0, .oneOrMore (.optional [.leaf 1])],
    .optional [.either [.leaf 2, .optional [.leaf 3, .leaf 4], .required []]],
    .oneOrMore (.leaf 5)]]

/-- A choice in a choice, an empty group, the shorthand, a value and repetitions. -/
theorem parsePattern_print_errand :
    let whom : Opt := .declared (some "-t") (some "--to") 1
    let all : Opt := .ofLong "--all" 0
    Registry.WellNamed [whom, all] ∧ errand.WellFormed [whom, all] ∧ .keyword "" ∉ errand.slots ∧
      parsePattern [whom, all] errand.print = ⟨.ok errand, [whom, all]⟩ ∧
      ∀ source, tokenize source = errand.written →
        parsePattern [whom, all] source = ⟨.ok errand, [whom, all]⟩ := by
  intro whom all
  have hr : Registry.WellNamed [whom, all] := by
    refine ⟨?_, ?_⟩
    · simp [Registry.Distinct, whom, all, Opt.ofLong, Opt.declared]
    · intro o ho long hlong
      simp only [List.mem_cons, List.not_mem_nil, or_false] at ho
      rcases ho with rfl | rfl
      · exact ⟨"to", by decide, (Option.some.inj hlong).symm⟩
      · exact ⟨"all", by decide, (Option.some.inj hlong).symm⟩
  have h0 : errand.Item [whom, all] (.leaf 0) :=
    .leaf rfl (.valued (o := whom) (by simp) rfl (by decide) (by decide) rfl (by decide) (by decide))
  have h1 : errand.Item [whom, all] (.oneOrMore (.optional [.leaf 1])) :=
    .repeated (by simp) (.shorthand rfl)
  have h2 : errand.Item [whom, all] (.leaf 2) :=
    .leaf rfl (.placeholder (by decide) (by decide) (by decide))
  have h3 : errand.Item [whom, all] (.leaf 3) :=
    .leaf rfl (.keyword (by decide) (by decide) (by decide) (by decide))
  have h4 : errand.Item [whom, all] (.leaf 4) :=
    .leaf rfl (.flag (o := all) (by simp) rfl (by decide) (by decide) rfl)
  have h5 : errand.Item [whom, all] (.oneOrMore (.leaf 5)) :=
    .repeated (by simp)
      (.leaf rfl (.keyword (by decide) (by decide) (by decide) (by decide)))
  have h01 : errand.Item [whom, all] (.required [.leaf 0, .oneOrMore (.optional [.leaf 1])]) :=
    .sequence .round (by simp [h0, h1])
  have h34 : errand.Item [whom, all] (.optional [.leaf 3, .leaf 4]) :=
    .sequence .square (by simp [h3, h4])
  have hnone : errand.Item [whom, all] (.required []) := .sequence .round (by simp)
  have h24 : errand.Item [whom, all]
      (.optional [.either [.leaf 2, .optional [.leaf 3, .leaf 4], .required []]]) :=
    .choice .square (by decide) (by simp [h2, h34, hnone])
  have ht : errand.WellFormed [whom, all] :=
    ⟨⟨_, rfl⟩, .choice .round (by decide) (by simp [h01, h24, h5]), rfl⟩
  have hnames : .keyword "" ∉ errand.slots := by decide
  exact ⟨hr, ht, hnames, parsePattern_print hr ht hnames⟩

/-- A command without a name is well-formed otherwise. It is printed as nothing, and nothing is read. -/
theorem parsePattern_print_nameless :
    let t : Tree := ⟨[.keyword ""], .required [.leaf 0]⟩
    Registry.WellNamed [] ∧ t.WellFormed [] ∧ parsePattern [] t.print = ⟨.ok .empty, []⟩ ∧
      parsePattern [] t.print ≠ ⟨.ok t, []⟩ := by
  intro t
  have hr : Registry.WellNamed [] := ⟨List.Pairwise.nil, fun o ho => absurd ho List.not_mem_nil⟩
  have hitem : t.Item [] (.leaf 0) :=
    .leaf rfl (.keyword (by decide) (by decide) (by decide) (by decide))
  have ht : t.WellFormed [] := ⟨⟨_, rfl⟩, .sequence .round (by simp [hitem]), rfl⟩
  have htokens : tokenize t.print = [] := by decide
  have hread : parsePattern [] t.print = ⟨.ok .empty, []⟩ := by
    rw [parsePattern_eq_run, htokens, Draft.run]
    rfl
  refine ⟨hr, ht, hread, ?_⟩
  rw [hread]
  intro heq
  have hslots : ([] : List Leaf) = t.slots :=
    congrArg Tree.slots (Except.ok.inj (congrArg Parsed.outcome heq))
  cases hslots

end Tree

end Synopsis
