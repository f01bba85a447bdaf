import Synopsis.Proofs.Groups
import Synopsis.Tree.Grammar

/-!
# What the grammar can build

Reading a usage pattern goes from draft to draft. `Draft.Step` lists once and for all what a step can
make of a draft (`step_of_advance`), and an invariant of the steps is an invariant of the whole run
(`exists_draft_of_run`); no later proof opens the reader again.

Two invariants are derived. The slots hold fresh leaves only: place holders and keywords whose names
tell which of the two they are, options, and the shorthand for options (`slots_of_parsePattern`).
And each choice in the pattern has an alternative (`passable_of_parsePattern`), which is what the
expansion needs to find any way at all.
-/

namespace Synopsis

/-- A leaf as the grammar first puts it into a slot. The name of a place holder or a keyword is a
token that is read as one. -/
inductive Leaf.Fresh : Leaf → Prop
  | placeholder {name : String} (h : TokenKind.of name = .argument) : Fresh (.placeholder name)
  | keyword {name : String} (h : TokenKind.of name = .command) : Fresh (.keyword name)
  | option (o : Opt) : Fresh (.option o)

/-! ## One step -/

/-- The atoms, or the repetition that an ellipsis makes of them. -/
def MaybeRepeated (atoms taken : List (Pattern Nat)) : Prop :=
  taken = atoms ∨ taken = [.oneOrMore (asRepeated atoms)]

theorem maybeRepeated_withEllipsis (atoms : List (Pattern Nat)) (rest : List String) :
    MaybeRepeated atoms (withEllipsis atoms rest).1 := by
  unfold withEllipsis
  split
  · exact Or.inl rfl
  · split
    · exact Or.inr rfl
    · exact Or.inl rfl

namespace Draft

/-- **`d.Step d'`**: what reading one token, and what belongs to it, can make of the draft `d`. -/
inductive Step (d : Draft) : Draft → Prop
  /-- A bracket opens a level. -/
  | opened (b : Bracket) : d.Step (d.push b)
  /-- A bar ends the alternative under way. -/
  | bar : d.Step { d with level := d.level.startAlternative }
  /-- A bracket closes the innermost level. -/
  | closed {b : Bracket} {level : Level} {outer : List (Bracket × Level)}
      {taken : List (Pattern Nat)} (houter : d.outer = (b, level) :: outer)
      (htaken : MaybeRepeated [b.group d.level.close] taken) :
      d.Step ({ d with outer := outer, level := level }.add taken)
  /-- Leaves are taken up, each in a slot of its own; options may have been registered. -/
  | leaves {registry : Registry} {leaves : List Leaf} {taken : List (Pattern Nat)}
      (hfresh : ∀ l ∈ leaves, l.Fresh) (htaken : MaybeRepeated (d.placesFor leaves) taken) :
      d.Step (({ d with registry := registry }.withSlots leaves).add taken)
  /-- The shorthand for options is taken up. -/
  | anyOptions {taken : List (Pattern Nat)}
      (htaken : MaybeRepeated [.optional (d.placesFor [.anyOptions])] taken) :
      d.Step ((d.withSlots [.anyOptions]).add taken)

theorem step_of_takeLeaves (registry : Registry) {d d' : Draft} {leaves : List Leaf}
    {rest rest' : List String} (hfresh : ∀ l ∈ leaves, l.Fresh)
    (h : { d with registry := registry }.takeLeaves leaves rest = .more d' rest') : d.Step d' := by
  obtain ⟨rfl, rfl⟩ := Progress.more.inj h
  exact .leaves hfresh (maybeRepeated_withEllipsis ..)

theorem step_of_takeOptions {d d' : Draft} {reading : Reading} {rest' : List String}
    (h : d.takeOptions reading = .more d' rest') : d.Step d' := by
  unfold takeOptions at h
  split at h
  · refine step_of_takeLeaves reading.registry ?_ h
    intro l hl
    obtain ⟨o, _, rfl⟩ := List.mem_map.mp hl
    exact .option o
  · cases h

theorem step_of_openBracket {d d' : Draft} {b : Bracket} {rest rest' : List String}
    (h : d.openBracket b rest = .more d' rest') : d.Step d' := by
  unfold openBracket at h
  split at h
  · unfold takeAnyOptions at h
    split at h
    · obtain ⟨rfl, rfl⟩ := Progress.more.inj h
      exact .anyOptions (maybeRepeated_withEllipsis ..)
    · cases h
  · obtain ⟨rfl, rfl⟩ := Progress.more.inj h
    exact .opened _

theorem step_of_closeBracket {d d' : Draft} {b : Bracket} {token : String}
    {rest rest' : List String} (h : d.closeBracket b token rest = .more d' rest') :
    d.Step d' := by
  unfold closeBracket at h
  split at h
  · cases h
  · next opened level outer houter =>
    split at h
    · next hb =>
      subst hb
      obtain ⟨rfl, rfl⟩ := Progress.more.inj h
      exact .closed houter (maybeRepeated_withEllipsis ..)
    · cases h

/-- Reading goes on only by one of the steps. -/
theorem step_of_advance {d d' : Draft} {token : String} {rest rest' : List String}
    (h : d.advance token rest = .more d' rest') : d.Step d' := by
  unfold advance at h
  split at h
  · exact step_of_openBracket h
  · exact step_of_closeBracket h
  · obtain ⟨rfl, rfl⟩ := Progress.more.inj h
    exact .bar
  · exact step_of_takeOptions h
  · exact step_of_takeOptions h
  · next hkind =>
    refine step_of_takeLeaves d.registry ?_ h
    intro l hl
    rw [List.mem_singleton.mp hl]
    exact .placeholder hkind
  · next hkind =>
    refine step_of_takeLeaves d.registry ?_ h
    intro l hl
    rw [List.mem_singleton.mp hl]
    exact .keyword hkind

/-- The mode is settled before the first token. -/
theorem mode_of_step {d d' : Draft} (h : d.Step d') : d'.mode = d.mode := by
  cases h with
  | opened | bar | closed | leaves | anyOptions => rfl

theorem failure_of_step {d d' : Draft} (h : d.Step d') (fault : GrammarFault) :
    d'.failure fault = d.failure fault := by
  rw [failure, failure, mode_of_step h]

/-- A slot once made keeps its number and its leaf. -/
theorem slots_prefix_of_step {d d' : Draft} (h : d.Step d') : d.slots <+: d'.slots := by
  cases h with
  | opened b => exact List.prefix_rfl
  | bar => exact List.prefix_rfl
  | closed _ _ => exact List.prefix_rfl
  | leaves _ _ => exact List.prefix_append _ _
  | anyOptions _ => exact List.prefix_append _ _

/-! ## A whole run -/

/-- What every step preserves holds of the draft that a tree is made of. -/
theorem exists_draft_of_run {Inv : Draft → Prop} (hstep : ∀ d d', Inv d → d.Step d' → Inv d')
    {d : Draft} (hd : Inv d) {tokens : List String} {t : Tree}
    (h : (d.run tokens).outcome = .ok t) :
    ∃ d', Inv d' ∧ d'.outer = [] ∧ t = ⟨d'.slots, .required d'.level.close⟩ := by
  fun_induction run d tokens with
  | case1 d =>
    unfold finish at h
    split at h
    · next houter => exact ⟨d, hd, houter, (Except.ok.inj h).symm⟩
    · cases h
  | case2 d token rest d' rest' hadv ih => exact ih (hstep d d' hd (step_of_advance hadv)) h
  | case3 => cases h

/-! ## The slots hold fresh leaves -/

/-- Every slot holds a fresh leaf or the shorthand for options. -/
def SlotsFresh (d : Draft) : Prop := ∀ l ∈ d.slots, l.Fresh ∨ l = .anyOptions

theorem slotsFresh_of_step {d d' : Draft} (hd : d.SlotsFresh) (h : d.Step d') :
    d'.SlotsFresh := by
  cases h with
  | opened b => exact hd
  | bar => exact hd
  | closed _ _ => exact hd
  | leaves hfresh _ =>
    intro l hl
    rcases List.mem_append.mp hl with hl | hl
    · exact hd l hl
    · exact Or.inl (hfresh l hl)
  | anyOptions _ =>
    intro l hl
    rcases List.mem_append.mp hl with hl | hl
    · exact hd l hl
    · exact Or.inr (List.mem_singleton.mp hl)

end Draft

theorem slots_of_parsePattern {registry : Registry} {source : String} {t : Tree}
    (h : (parsePattern registry source).outcome = .ok t) :
    ∀ l ∈ t.slots, l.Fresh ∨ l = .anyOptions := by
  have hstart : (Draft.start .grammar registry).SlotsFresh := by
    intro l hl
    cases hl
  obtain ⟨d, hd, _, rfl⟩ :=
    Draft.exists_draft_of_run (fun _ _ hinv => Draft.slotsFresh_of_step hinv) hstart h
  exact hd

/-! ## Every choice has an alternative -/

open Pattern (Passable PassableAll passableAll_iff)

theorem passableAll_append {ps qs : List (Pattern Nat)} :
    PassableAll (ps ++ qs) ↔ PassableAll ps ∧ PassableAll qs := by
  simp only [passableAll_iff, List.mem_append, or_imp, forall_and]

theorem passableAll_places (d : Draft) (leaves : List Leaf) :
    PassableAll (d.placesFor leaves) := by
  rw [passableAll_iff]
  intro p hp
  obtain ⟨i, _, rfl⟩ := List.mem_map.mp hp
  trivial

theorem passableAll_of_maybeRepeated {atoms taken : List (Pattern Nat)}
    (h : MaybeRepeated atoms taken) (hatoms : PassableAll atoms) : PassableAll taken := by
  rcases h with rfl | rfl
  · exact hatoms
  · refine ⟨?_, trivial⟩
    unfold asRepeated
    split
    · exact hatoms.1
    · exact hatoms

theorem Bracket.passable_group (b : Bracket) {ps : List (Pattern Nat)} (h : PassableAll ps) :
    (b.group ps).Passable := by
  cases b with
  | round => exact h
  | square => exact h

/-- Every choice read on the level has an alternative. -/
def Level.Passable (l : Level) : Prop := (∀ ps ∈ l.finished, PassableAll ps) ∧ PassableAll l.current

namespace Level

theorem passable_add {l : Level} (h : l.Passable) {atoms : List (Pattern Nat)}
    (hatoms : PassableAll atoms) : (l.add atoms).Passable :=
  ⟨h.1, passableAll_append.mpr ⟨h.2, hatoms⟩⟩

theorem passable_startAlternative {l : Level} (h : l.Passable) :
    l.startAlternative.Passable := by
  refine ⟨?_, trivial⟩
  intro ps hps
  rcases List.mem_append.mp hps with hps | hps
  · exact h.1 ps hps
  · rw [List.mem_singleton.mp hps]
    exact h.2

theorem passableAll_asAlternative {ps : List (Pattern Nat)} (h : PassableAll ps) :
    PassableAll (asAlternative ps) := by
  unfold asAlternative
  split
  · exact ⟨h, trivial⟩
  · exact h

/-- Closing a level makes a choice only of two alternatives or more. -/
theorem passableAll_close {l : Level} (h : l.Passable) : PassableAll l.close := by
  have halternatives : PassableAll ((l.finished ++ [l.current]).flatMap asAlternative) := by
    rw [passableAll_iff]
    intro p hp
    obtain ⟨ps, hps, hp⟩ := List.mem_flatMap.mp hp
    have hpass : PassableAll ps := by
      rcases List.mem_append.mp hps with hps | hps
      · exact h.1 ps hps
      · rw [List.mem_singleton.mp hps]
        exact h.2
    exact passableAll_iff.mp (passableAll_asAlternative hpass) p hp
  unfold close
  split
  · exact h.2
  · split
    · next heq =>
      rw [heq] at halternatives
      exact ⟨⟨List.cons_ne_nil _ _, halternatives⟩, trivial⟩
    · exact halternatives

end Level

/-- Every choice read so far, on any level, has an alternative. -/
def Draft.Passable (d : Draft) : Prop := (∀ e ∈ d.outer, e.2.Passable) ∧ d.level.Passable

theorem Draft.passable_of_step {d d' : Draft} (hd : d.Passable) (h : d.Step d') :
    d'.Passable := by
  obtain ⟨houter, hlevel⟩ := hd
  cases h with
  | opened b =>
    refine ⟨?_, ⟨?_, trivial⟩⟩
    · intro e he
      rcases List.mem_cons.mp he with rfl | he
      · exact hlevel
      · exact houter e he
    · intro ps hps
      cases hps
  | bar => exact ⟨houter, Level.passable_startAlternative hlevel⟩
  | @closed b level outer taken hopen htaken =>
    rw [hopen] at houter
    have hgroup : PassableAll [b.group d.level.close] :=
      ⟨b.passable_group (Level.passableAll_close hlevel), trivial⟩
    exact ⟨fun e he => houter e (List.mem_cons_of_mem _ he),
      Level.passable_add (houter _ List.mem_cons_self)
        (passableAll_of_maybeRepeated htaken hgroup)⟩
  | leaves _ htaken =>
    exact ⟨houter, Level.passable_add hlevel
      (passableAll_of_maybeRepeated htaken (passableAll_places d _))⟩
  | anyOptions htaken =>
    exact ⟨houter, Level.passable_add hlevel
      (passableAll_of_maybeRepeated htaken ⟨passableAll_places d _, trivial⟩)⟩

theorem passable_of_parsePattern {registry : Registry} {source : String} {t : Tree}
    (h : (parsePattern registry source).outcome = .ok t) : t.root.Passable := by
  have hstart : (Draft.start .grammar registry).Passable := by
    refine ⟨?_, ?_, trivial⟩
    · intro e he
      cases he
    · intro ps hps
      cases hps
  obtain ⟨d, hd, _, rfl⟩ :=
    Draft.exists_draft_of_run (fun _ _ hinv => Draft.passable_of_step hinv) hstart h
  exact Level.passableAll_close hd.2

end Synopsis
