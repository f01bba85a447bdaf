import Synopsis.Proofs.Numbering

/-!
# A pattern inside a larger one

A pattern that is read on its own is read in the same way between brackets, behind other patterns
and before others. An option could take a token that comes after its pattern: it does not, or
reading the pattern alone would have failed (`readLong_append`, `readLetters_append`). And the
reader could see what it has read before: `Draft.inside` puts a draft behind another one, and a step
of the one is the step of both (`advance_inside`), so a whole run is, too (`run_inside`).

Main statement: brackets, ellipses and bars around patterns make the groups that they stand for,
with the slots of the parts one after the other (`parsePattern_compositional`).
-/

namespace Synopsis

/-! ## Readers with more words behind -/

/-- The reading with more words behind those that it has not consumed. -/
def Reading.followedBy (reading : Reading) (tail : List String) : Reading :=
  { reading with rest := reading.rest ++ tail }

theorem readLongValue_append {mode : Mode} {o : Opt} {inline : Option String} {r : Registry}
    {rest : List String} {os : List Opt} (h : (readLongValue mode o inline r rest).outcome = .ok os)
    (tail : List String) : readLongValue mode o inline r (rest ++ tail) =
      (readLongValue mode o inline r rest).followedBy tail := by
  cases inline with
  | some v =>
    by_cases harity : o.arity = 1
    · simp [readLongValue, harity, Reading.ok, Reading.followedBy]
    · simp [readLongValue, harity, Reading.fail] at h
  | none =>
    by_cases harity : o.arity = 1
    · cases rest with
      | cons v rest => simp [readLongValue, harity, Reading.ok, Reading.followedBy]
      | nil => simp [readLongValue, harity, Reading.fail] at h
    · simp [readLongValue, harity, Reading.ok, Reading.followedBy]

/-- A long option that is read takes none of the words that are put behind. -/
theorem readLong_append {mode : Mode} {r : Registry} {word : String} {rest : List String}
    {os : List Opt} (h : (readLong mode r (word :: rest)).outcome = .ok os) (tail : List String) :
    readLong mode r (word :: (rest ++ tail)) =
      (readLong mode r (word :: rest)).followedBy tail := by
  simp only [readLong] at h ⊢
  split
  · next hnone =>
    rw [hnone] at h
    split
    · rfl
    · next hmode =>
      simp only [hmode, Bool.false_eq_true, if_false] at h
      cases h
  · next hone =>
    rw [hone] at h
    exact readLongValue_append h tail
  · rfl

theorem Reading.outcome_of_precededBy {o : Opt} {reading : Reading} {os : List Opt}
    (h : (reading.precededBy o).outcome = .ok os) : ∃ ps, reading.outcome = .ok ps := by
  obtain ⟨outcome, registry, rest⟩ := reading
  cases outcome with
  | error fault => cases h
  | ok ps => exact ⟨ps, rfl⟩

/-- A cluster that is read takes none of the words that are put behind. -/
theorem readLetters_append {mode : Mode} {r : Registry} {rest : List String} {cs : List Char}
    {os : List Opt} (h : (readLetters mode r rest cs).outcome = .ok os) (tail : List String) :
    readLetters mode r (rest ++ tail) cs = (readLetters mode r rest cs).followedBy tail := by
  induction cs generalizing r os with
  | nil => rfl
  | cons c cs ih =>
    cases hfound : r.shortCandidates (shortName c) with
    | nil =>
      by_cases hmode : mode.registersUnknown = true
      · simp only [readLetters, hfound, hmode, if_true] at h ⊢
        obtain ⟨ps, hps⟩ := Reading.outcome_of_precededBy h
        rw [ih hps]
        rfl
      · simp only [readLetters, hfound, hmode] at h
        cases h
    | cons o others =>
      cases others with
      | nil =>
        by_cases harity : o.arity = 0
        · simp only [readLetters, hfound, harity, if_true] at h ⊢
          obtain ⟨ps, hps⟩ := Reading.outcome_of_precededBy h
          rw [ih hps]
          rfl
        · cases cs with
          | cons d cs => simp [readLetters, hfound, harity, Reading.ok, Reading.followedBy]
          | nil =>
            cases rest with
            | cons v rest => simp [readLetters, hfound, harity, Reading.ok, Reading.followedBy]
            | nil => simp [readLetters, hfound, harity, Reading.fail] at h
      | cons p others =>
        simp only [readLetters, hfound] at h
        cases h

/-! ## Slots behind other slots -/

namespace Pattern

/-- The pattern over slots that stand behind `n` others. -/
def shift (n : Nat) (p : Pattern Nat) : Pattern Nat := p.map (n + ·)

/-- The patterns over slots that stand behind `n` others. -/
def shiftAll (n : Nat) (ps : List (Pattern Nat)) : List (Pattern Nat) := ps.map (shift n)

theorem shiftAll_append (n : Nat) (ps qs : List (Pattern Nat)) :
    shiftAll n (ps ++ qs) = shiftAll n ps ++ shiftAll n qs := List.map_append

theorem shift_required (n : Nat) (ps : List (Pattern Nat)) :
    (required ps).shift n = required (shiftAll n ps) := by
  rw [shift, map, mapAll_eq_map]
  rfl

theorem shift_optional (n : Nat) (ps : List (Pattern Nat)) :
    (optional ps).shift n = optional (shiftAll n ps) := by
  rw [shift, map, mapAll_eq_map]
  rfl

theorem shift_either (n : Nat) (ps : List (Pattern Nat)) :
    (either ps).shift n = either (shiftAll n ps) := by
  rw [shift, map, mapAll_eq_map]
  rfl

theorem shift_zero (p : Pattern Nat) : p.shift 0 = p := by
  rw [shift]
  induction p using Pattern.ind with
  | leaf i => rw [map, Nat.zero_add]
  | required ps ih | optional ps ih | either ps ih =>
    rw [map, mapAll_eq_map, List.map_congr_left ih, List.map_id']
  | oneOrMore p ih => rw [map, ih]

theorem shiftAll_zero (ps : List (Pattern Nat)) : shiftAll 0 ps = ps := by
  rw [shiftAll, List.map_congr_left fun p _ => shift_zero p, List.map_id']

end Pattern

open Pattern (shiftAll)

theorem Bracket.shift_group (b : Bracket) (n : Nat) (ps : List (Pattern Nat)) :
    (b.group ps).shift n = b.group (shiftAll n ps) := by
  cases b with
  | round => exact Pattern.shift_required n ps
  | square => exact Pattern.shift_optional n ps

theorem asRepeated_shiftAll (n : Nat) (ps : List (Pattern Nat)) :
    asRepeated (shiftAll n ps) = (asRepeated ps).shift n := by
  match ps with
  | [] => rfl
  | [p] => rfl
  | p :: q :: ps => exact (Pattern.shift_required n (p :: q :: ps)).symm

namespace Level

/-- The level over slots that stand behind `n` others. -/
def shift (n : Nat) (l : Level) : Level := ⟨l.finished.map (shiftAll n), shiftAll n l.current⟩

/-- The level with the alternatives that another one has finished in front. -/
def after (l before : Level) : Level := ⟨before.finished ++ l.finished, l.current⟩

theorem shift_add (n : Nat) (l : Level) (atoms : List (Pattern Nat)) :
    (l.add atoms).shift n = (l.shift n).add (shiftAll n atoms) := by
  rw [add, shift, Pattern.shiftAll_append]
  rfl

theorem shift_startAlternative (n : Nat) (l : Level) :
    l.startAlternative.shift n = (l.shift n).startAlternative := by
  rw [startAlternative, shift, List.map_append]
  rfl

theorem after_startAlternative (l before : Level) :
    l.startAlternative.after before = (l.after before).startAlternative := by
  rw [startAlternative, after, ← List.append_assoc]
  rfl

theorem asAlternative_shiftAll (n : Nat) (ps : List (Pattern Nat)) :
    asAlternative (shiftAll n ps) = shiftAll n (asAlternative ps) := by
  match ps with
  | [] => rfl
  | [p] => rfl
  | p :: q :: ps => exact congrArg ([·]) (Pattern.shift_required n (p :: q :: ps)).symm

theorem alternatives_shift (n : Nat) (l : Level) :
    (l.shift n).alternatives = shiftAll n l.alternatives := by
  have hlists : (l.shift n).finished ++ [(l.shift n).current] =
      (l.finished ++ [l.current]).map (shiftAll n) := by
    rw [List.map_append]
    rfl
  rw [alternatives, hlists, List.flatMap_map]
  simp only [asAlternative_shiftAll]
  exact List.map_flatMap.symm

theorem chosen_shiftAll (n : Nat) (ps : List (Pattern Nat)) :
    chosen (shiftAll n ps) = shiftAll n (chosen ps) := by
  match ps with
  | [] => rfl
  | [p] => rfl
  | p :: q :: ps => exact congrArg ([·]) (Pattern.shift_either n (p :: q :: ps)).symm

theorem close_shift (n : Nat) (l : Level) : (l.shift n).close = shiftAll n l.close := by
  by_cases hfinished : l.finished = []
  · have hshifted : (l.shift n).finished = [] := List.map_eq_nil_iff.mpr hfinished
    rw [close_of_no_bar hfinished, close_of_no_bar hshifted]
    rfl
  · have hshifted : (l.shift n).finished ≠ [] := fun h => hfinished (List.map_eq_nil_iff.mp h)
    rw [close_of_bar hfinished, close_of_bar hshifted, alternatives_shift, chosen_shiftAll]

end Level

/-! ## Drafts behind other drafts -/

theorem withEllipsis_append (n : Nat) (atoms : List (Pattern Nat)) {tail : List String}
    (htail : tail.head? ≠ some "...") (rest : List String) :
    withEllipsis (shiftAll n atoms) (rest ++ tail) =
      (shiftAll n (withEllipsis atoms rest).1, (withEllipsis atoms rest).2 ++ tail) := by
  cases rest with
  | nil =>
    cases tail with
    | nil => rfl
    | cons token tail => exact if_neg fun h => htail (by rw [h]; rfl)
  | cons token rest =>
    rw [List.cons_append, withEllipsis, withEllipsis]
    split
    · rw [asRepeated_shiftAll]
      rfl
    · rfl

namespace Draft

/-- The innermost level and the stack of a draft behind `base`: the stack of `base` is below, and
the alternatives that `base` has finished are in front of those of the outermost level. -/
def placed (base : Draft) (level : Level) : List (Bracket × Level) → Level × List (Bracket × Level)
  | [] => ((level.shift base.slots.length).after base.level, base.outer)
  | (b, next) :: outer =>
    (level.shift base.slots.length, (b, (base.placed next outer).1) :: (base.placed next outer).2)

/-- **`d.inside base`**: the draft `d` as it is where `base` was read before. -/
def inside (d base : Draft) : Draft where
  mode := d.mode
  slots := base.slots ++ d.slots
  registry := d.registry
  outer := (base.placed d.level d.outer).2
  level := (base.placed d.level d.outer).1

/-- To start where an alternative starts is to go on from there. -/
theorem start_inside {base : Draft} {mode : Mode} {r : Registry} (hmode : base.mode = mode)
    (hregistry : base.registry = r) (hcurrent : base.level.current = []) :
    (Draft.start mode r).inside base = base := by
  obtain ⟨mode', slots, registry, outer, finished, current⟩ := base
  obtain rfl : mode' = mode := hmode
  obtain rfl : registry = r := hregistry
  obtain rfl : current = [] := hcurrent
  simp [inside, start, placed, Level.shift, Level.after, Level.empty, shiftAll]

theorem placed_add (base : Draft) (level : Level) (atoms : List (Pattern Nat))
    (outer : List (Bracket × Level)) :
    base.placed (level.add atoms) outer =
      ((base.placed level outer).1.add (shiftAll base.slots.length atoms),
        (base.placed level outer).2) := by
  cases outer with
  | nil =>
    rw [placed, placed, Level.shift_add]
    rfl
  | cons e outer => rw [placed, placed, Level.shift_add]

theorem placed_startAlternative (base : Draft) (level : Level) (outer : List (Bracket × Level)) :
    base.placed level.startAlternative outer =
      ((base.placed level outer).1.startAlternative, (base.placed level outer).2) := by
  cases outer with
  | nil => rw [placed, placed, Level.shift_startAlternative, Level.after_startAlternative]
  | cons e outer => rw [placed, placed, Level.shift_startAlternative]

theorem inside_add (d base : Draft) (atoms : List (Pattern Nat)) :
    (d.add atoms).inside base = (d.inside base).add (shiftAll base.slots.length atoms) := by
  rw [add, inside, placed_add]
  rfl

theorem inside_withSlots (d base : Draft) (leaves : List Leaf) :
    (d.withSlots leaves).inside base = (d.inside base).withSlots leaves := by
  rw [withSlots, inside, ← List.append_assoc]
  rfl

theorem placesFor_inside (d base : Draft) (leaves : List Leaf) :
    (d.inside base).placesFor leaves = shiftAll base.slots.length (d.placesFor leaves) := by
  show (List.range' (base.slots ++ d.slots).length leaves.length).map Pattern.leaf =
    ((List.range' d.slots.length leaves.length).map Pattern.leaf).map (Pattern.shift _)
  rw [List.length_append, ← List.map_add_range', List.map_map, List.map_map]
  rfl

end Draft

/-- What a step leads to behind `base`, with more tokens behind. -/
def Progress.inside (base : Draft) (tail : List String) : Progress → Progress
  | more d rest => more (d.inside base) (rest ++ tail)
  | stop failure registry => stop failure registry

namespace Draft

variable (base : Draft) {tail : List String}

theorem takeAtoms_inside (htail : tail.head? ≠ some "...") (d : Draft) (atoms : List (Pattern Nat))
    (rest : List String) :
    (d.inside base).takeAtoms (shiftAll base.slots.length atoms) (rest ++ tail) =
      (d.takeAtoms atoms rest).inside base tail := by
  rw [takeAtoms, withEllipsis_append _ _ htail, ← inside_add]
  rfl

theorem takeLeaves_inside (htail : tail.head? ≠ some "...") (d : Draft) (leaves : List Leaf)
    (rest : List String) :
    (d.inside base).takeLeaves leaves (rest ++ tail) =
      (d.takeLeaves leaves rest).inside base tail := by
  rw [takeLeaves, placesFor_inside, ← inside_withSlots, takeAtoms_inside base htail]
  rfl

theorem takeOptions_inside (htail : tail.head? ≠ some "...") {d d' : Draft}
    {reading reading' : Reading} {rest' : List String}
    (hreading : ∀ os, reading.outcome = .ok os → reading' = reading.followedBy tail)
    (h : d.takeOptions reading = .more d' rest') :
    (d.inside base).takeOptions reading' = .more (d'.inside base) (rest' ++ tail) := by
  unfold takeOptions at h
  split at h
  · next os hos =>
    have htaken := takeLeaves_inside base htail { d with registry := reading.registry }
      (os.map Leaf.option) reading.rest
    rw [h] at htaken
    have houtcome : (reading.followedBy tail).outcome = .ok os := hos
    rw [hreading os hos, takeOptions, houtcome]
    exact htaken
  · cases h

/-- The shorthand for options, or an opening bracket, is the same with more tokens behind, if these
do not start with the word of the shorthand. -/
theorem openBracket_inside (htail : Tree.Starts tail) {d d' : Draft} {b : Bracket}
    {rest rest' : List String} (h : d.openBracket b rest = .more d' rest') :
    (d.inside base).openBracket b (rest ++ tail) = .more (d'.inside base) (rest' ++ tail) := by
  unfold openBracket at h
  split at h
  · next rest =>
    unfold takeAnyOptions at h
    split at h
    · next rest =>
      have htaken := takeAtoms_inside base htail.1 (d.withSlots [.anyOptions])
        [.optional (d.placesFor [.anyOptions])] rest
      rw [h, inside_withSlots] at htaken
      have hplaces : shiftAll base.slots.length [.optional (d.placesFor [.anyOptions])] =
          [.optional ((d.inside base).placesFor [.anyOptions])] := by
        rw [placesFor_inside, ← Pattern.shift_optional]
        rfl
      rw [hplaces] at htaken
      exact htaken
    · cases h
  · next hrest =>
    obtain ⟨rfl, rfl⟩ := Progress.more.inj h
    refine openBracket_eq_more ?_
    rintro rfl
    cases rest with
    | nil => exact htail.2
    | cons token rest =>
      intro htoken
      exact hrest rest rfl (by rw [Option.some.inj htoken])

theorem closeBracket_inside (htail : tail.head? ≠ some "...") {d d' : Draft} {b : Bracket}
    {token : String} {rest rest' : List String}
    (h : d.closeBracket b token rest = .more d' rest') :
    (d.inside base).closeBracket b token (rest ++ tail) = .more (d'.inside base) (rest' ++ tail) := by
  unfold closeBracket at h
  split at h
  · cases h
  · next opened level outer houter =>
    split at h
    · next hb =>
      subst hb
      have htaken := takeAtoms_inside base htail { d with outer := outer, level := level }
        [opened.group d.level.close] rest
      rw [h] at htaken
      have hlevel : (d.inside base).level = d.level.shift base.slots.length := by
        rw [inside, houter]
        rfl
      have houter' : (d.inside base).outer =
          (opened, (base.placed level outer).1) :: (base.placed level outer).2 := by
        rw [inside, houter]
        rfl
      have hgroup : shiftAll base.slots.length [opened.group d.level.close] =
          [opened.group (d.inside base).level.close] := by
        rw [hlevel, Level.close_shift, ← Bracket.shift_group]
        rfl
      rw [hgroup] at htaken
      rw [closeBracket, houter']
      exact (if_pos rfl).trans htaken
    · cases h

/-- A step is the same behind what was read before and in front of what is to come. -/
theorem advance_inside (htail : Tree.Starts tail) {d d' : Draft} {token : String}
    {rest rest' : List String} (h : d.advance token rest = .more d' rest') :
    (d.inside base).advance token (rest ++ tail) = .more (d'.inside base) (rest' ++ tail) := by
  unfold advance at h ⊢
  split at h
  · exact openBracket_inside base htail h
  · exact closeBracket_inside base htail.1 h
  · obtain ⟨rfl, rfl⟩ := Progress.more.inj h
    rw [inside.eq_1 { d with level := d.level.startAlternative }, placed_startAlternative]
    rfl
  · exact takeOptions_inside base htail.1 (fun _ hos => readLong_append hos tail) h
  · exact takeOptions_inside base htail.1 (fun _ hos => readLetters_append hos tail) h
  · have htaken := takeLeaves_inside base htail.1 d [.placeholder token] rest
    rw [h] at htaken
    exact htaken
  · have htaken := takeLeaves_inside base htail.1 d [.keyword token] rest
    rw [h] at htaken
    exact htaken

theorem run_nil (d : Draft) : d.run [] = d.finish := by
  rw [run]

theorem run_of_advance {d d' : Draft} {token : String} {rest rest' : List String}
    (h : d.advance token rest = .more d' rest') : d.run (token :: rest) = d'.run rest' := by
  rw [run_cons, h]
  rfl

/-- The run in so many steps, by recursion on their number. Unlike `run` it can be unfolded on given
tokens. -/
def runWithin : Nat → Draft → List String → Option Parsed
  | _, d, [] => some d.finish
  | 0, _, _ :: _ => none
  | n + 1, d, token :: rest =>
    match d.advance token rest with
    | .more d' rest' => d'.runWithin n rest'
    | .stop failure registry => some ⟨.error failure, registry⟩

/-- As many steps as there are tokens are enough. -/
theorem runWithin_of_length_le {n : Nat} {d : Draft} {tokens : List String}
    (h : tokens.length ≤ n) : d.runWithin n tokens = some (d.run tokens) := by
  fun_induction runWithin n d tokens with
  | case1 n d => rw [run_nil]
  | case2 d token rest => exact absurd h (Nat.not_succ_le_zero _)
  | case3 n d token rest d' rest' hadvance ih =>
    have hlength := length_of_advance hadvance
    rw [List.length_cons] at h hlength
    rw [run_of_advance hadvance]
    exact ih (by omega)
  | case4 n d token rest failure registry hadvance =>
    rw [run_cons, hadvance]
    rfl

/-- **A pattern is read in the same way wherever it stands.** If the tokens of a pattern are read
from the draft `d` to the end, then they are read behind `base`, too, up to the tokens that follow.
Of the pattern there is a level that closes as its root, and its alternatives have come behind those
that `base` has finished. -/
theorem run_inside (htail : Tree.Starts tail) {d : Draft} {tokens : List String} {t : Tree}
    {r : Registry} (h : d.run tokens = ⟨.ok t, r⟩) :
    ∃ l : Level, t.root = .required l.close ∧
      (d.inside base).run (tokens ++ tail) =
        run ⟨d.mode, base.slots ++ t.slots, r, base.outer,
          (l.shift base.slots.length).after base.level⟩ tail := by
  fun_induction run d tokens with
  | case1 d =>
    unfold finish at h
    split at h
    · next houter =>
      obtain ⟨rfl, rfl⟩ : (⟨d.slots, .required d.level.close⟩ : Tree) = t ∧ d.registry = r := by
        simpa using h
      refine ⟨d.level, rfl, ?_⟩
      rw [inside, houter]
      rfl
    · cases h
  | case2 d token rest d' rest' hadvance ih =>
    obtain ⟨l, hl, hrun⟩ := ih h
    refine ⟨l, hl, ?_⟩
    rw [mode_of_step (step_of_advance hadvance)] at hrun
    exact (run_of_advance (advance_inside base htail hadvance)).trans hrun
  | case3 => cases h

end Draft

theorem parsePattern_of_runWithin {r : Registry} {s : String} {p : Parsed}
    (h : (Draft.start .grammar r).runWithin (tokenize s).length (tokenize s) = some p) :
    parsePattern r s = p := by
  rw [Draft.runWithin_of_length_le le_rfl] at h
  exact Option.some.inj h

/-! ## Groups -/

namespace Draft

/-- Brackets around a pattern make one atom of it, wherever they stand. -/
theorem run_group {d : Draft} {tokens : List String} {slots : List Leaf} {ps : List (Pattern Nat)}
    {r : Registry} (h : (Draft.start d.mode d.registry).run tokens = ⟨.ok ⟨slots, .required ps⟩, r⟩)
    {b : Bracket} (hstart : b = .square → tokens.head? ≠ some "options") (rest : List String) :
    d.run (b.opening :: (tokens ++ b.closing :: rest)) =
      (takeAtoms { d with slots := d.slots ++ slots, registry := r }
        [b.group (shiftAll d.slots.length ps)] rest).conclude := by
  have hclosing : Tree.Starts (b.closing :: rest) := Tree.starts_cons (by cases b <;> decide) rest
  have hopen : b = .square → (tokens ++ b.closing :: rest).head? ≠ some "options" := by
    intro hb
    cases tokens with
    | nil => exact hclosing.2
    | cons token tokens => exact hstart hb
  obtain ⟨l, hl, hrun⟩ := run_inside (d.push b) hclosing h
  have hps : ps = l.close := Pattern.required.inj hl
  rw [start_inside (show (d.push b).mode = d.mode from rfl)
    (show (d.push b).registry = d.registry from rfl) rfl] at hrun
  rw [run_cons, advance_opening, openBracket_eq_more hopen]
  show (d.push b).run _ = _
  rw [hrun, run_cons, advance_closing, hps, ← Level.close_shift]
  exact congrArg Progress.conclude (if_pos rfl)

/-- At the end of the tokens, the group is the last atom of the pattern. -/
theorem run_last_group {d : Draft} (houter : d.outer = []) {tokens : List String}
    {slots : List Leaf} {ps : List (Pattern Nat)} {r : Registry}
    (h : (Draft.start d.mode d.registry).run tokens = ⟨.ok ⟨slots, .required ps⟩, r⟩) {b : Bracket}
    (hstart : b = .square → tokens.head? ≠ some "options") :
    d.run (b.opening :: (tokens ++ [b.closing])) =
      ⟨.ok ⟨d.slots ++ slots,
        .required (d.level.add [b.group (shiftAll d.slots.length ps)]).close⟩, r⟩ := by
  rw [run_group h hstart, conclude_takeAtoms (by decide), run_nil]
  simp only [finish, add, houter]

end Draft

/-- A pattern between brackets is read as one group. -/
theorem parsePattern_enclosed {r r' : Registry} {s : String} {slots : List Leaf}
    {ps : List (Pattern Nat)} (h : parsePattern r s = ⟨.ok ⟨slots, .required ps⟩, r'⟩) {b : Bracket}
    (hstart : b = .square → (tokenize s).head? ≠ some "options") :
    parsePattern r (b.opening ++ s ++ b.closing) =
      ⟨.ok ⟨slots, .required [b.group ps]⟩, r'⟩ := by
  rw [parsePattern_eq_run] at h ⊢
  rw [tokenize_enclosed, Draft.run_last_group (d := .start .grammar r) rfl h hstart]
  show (⟨.ok ⟨slots, .required [b.group (shiftAll 0 ps)]⟩, r'⟩ : Parsed) = _
  rw [Pattern.shiftAll_zero]

/-- An ellipsis behind the brackets repeats the group. -/
theorem parsePattern_repeated {r r' : Registry} {s : String} {slots : List Leaf}
    {ps : List (Pattern Nat)} (h : parsePattern r s = ⟨.ok ⟨slots, .required ps⟩, r'⟩) :
    parsePattern r ("(" ++ s ++ ")...") =
      ⟨.ok ⟨slots, .required [.oneOrMore (.required ps)]⟩, r'⟩ := by
  have htokens : tokenize ("(" ++ s ++ ")...") = "(" :: (tokenize s ++ ")" :: ["..."]) :=
    tokenize_group .round s "..."
  rw [parsePattern_eq_run, htokens]
  refine (Draft.run_group (d := .start .grammar r) h (b := .round) Bracket.noConfusion ["..."]).trans ?_
  show Draft.run ⟨.grammar, slots, r', [], ⟨[], [.oneOrMore (.required (shiftAll 0 ps))]⟩⟩ [] = _
  rw [Pattern.shiftAll_zero]
  exact Draft.run_nil _

/-- The first of two patterns in parentheses is read, and the reader stands before what follows it. -/
theorem run_first_group {r r' : Registry} {s : String} {slots : List Leaf} {ps : List (Pattern Nat)}
    (h : parsePattern r s = ⟨.ok ⟨slots, .required ps⟩, r'⟩) {rest : List String}
    (hrest : rest.head? ≠ some "...") :
    (Draft.start .grammar r).run ("(" :: (tokenize s ++ ")" :: rest)) =
      Draft.run ⟨.grammar, slots, r', [], ⟨[], [.required ps]⟩⟩ rest := by
  refine (Draft.run_group (d := .start .grammar r) h (b := .round) Bracket.noConfusion rest).trans ?_
  rw [Draft.conclude_takeAtoms hrest]
  show Draft.run ⟨.grammar, slots, r', [], ⟨[], [.required (shiftAll 0 ps)]⟩⟩ rest = _
  rw [Pattern.shiftAll_zero]

/-- **Reading is compositional.** Whatever pattern is read on its own, with whatever options are
registered on the way, is read in parentheses as a required group, in parentheses before an ellipsis
as its repetition, and in square brackets as an optional group, unless it starts with the word of
the shorthand. Two patterns, the second of which is read with the options known after the first, are
read in parentheses side by side as two groups, and with a bar between them as a choice; the slots
of the second stand behind those of the first. -/
theorem parsePattern_compositional (r : Registry) :
    (∀ s slots ps r', parsePattern r s = ⟨.ok ⟨slots, .required ps⟩, r'⟩ →
      parsePattern r ("(" ++ s ++ ")") = ⟨.ok ⟨slots, .required [.required ps]⟩, r'⟩ ∧
      parsePattern r ("(" ++ s ++ ")...") =
        ⟨.ok ⟨slots, .required [.oneOrMore (.required ps)]⟩, r'⟩ ∧
      ((tokenize s).head? ≠ some "options" →
        parsePattern r ("[" ++ s ++ "]") = ⟨.ok ⟨slots, .required [.optional ps]⟩, r'⟩)) ∧
    ∀ s₁ slots₁ ps₁ r₁ s₂ slots₂ ps₂ r₂,
      parsePattern r s₁ = ⟨.ok ⟨slots₁, .required ps₁⟩, r₁⟩ →
      parsePattern r₁ s₂ = ⟨.ok ⟨slots₂, .required ps₂⟩, r₂⟩ →
      parsePattern r ("(" ++ s₁ ++ ")(" ++ s₂ ++ ")") =
        ⟨.ok ⟨slots₁ ++ slots₂,
          .required [.required ps₁, .required (shiftAll slots₁.length ps₂)]⟩, r₂⟩ ∧
      parsePattern r ("(" ++ s₁ ++ ")|(" ++ s₂ ++ ")") =
        ⟨.ok ⟨slots₁ ++ slots₂,
          .required [.either [.required ps₁, .required (shiftAll slots₁.length ps₂)]]⟩, r₂⟩ := by
  constructor
  · intro s slots ps r' h
    refine ⟨parsePattern_enclosed h (b := .round) Bracket.noConfusion, parsePattern_repeated h, ?_⟩
    intro hstart
    exact parsePattern_enclosed h (b := .square) fun _ => hstart
  · intro s₁ slots₁ ps₁ r₁ s₂ slots₂ ps₂ r₂ h₁ h₂
    have hsecond : tokenize ("(" ++ s₂ ++ ")") = "(" :: (tokenize s₂ ++ [")"]) :=
      tokenize_enclosed .round s₂
    constructor
    · have htext : "(" ++ s₁ ++ ")(" ++ s₂ ++ ")" = "(" ++ s₁ ++ (")" ++ ("(" ++ s₂ ++ ")")) := by
        have hmiddle : ")(" = ")" ++ "(" := rfl
        simp only [hmiddle, String.append_assoc]
      have htokens : tokenize ("(" ++ s₁ ++ (")" ++ ("(" ++ s₂ ++ ")"))) =
          "(" :: (tokenize s₁ ++ ")" :: tokenize ("(" ++ s₂ ++ ")")) :=
        tokenize_group .round s₁ ("(" ++ s₂ ++ ")")
      rw [htext, parsePattern_eq_run, htokens, hsecond,
        run_first_group h₁ (Tree.starts_cons (by decide) _).1]
      exact Draft.run_last_group (d := ⟨.grammar, slots₁, r₁, [], ⟨[], [.required ps₁]⟩⟩) rfl h₂
        (b := .round) Bracket.noConfusion
    · have htext : "(" ++ s₁ ++ ")|(" ++ s₂ ++ ")" =
          "(" ++ s₁ ++ (")" ++ ("|" ++ ("(" ++ s₂ ++ ")"))) := by
        have hmiddle : ")|(" = ")" ++ ("|" ++ "(") := rfl
        simp only [hmiddle, String.append_assoc]
      have htokens : tokenize ("(" ++ s₁ ++ (")" ++ ("|" ++ ("(" ++ s₂ ++ ")")))) =
          "(" :: (tokenize s₁ ++ ")" :: "|" :: tokenize ("(" ++ s₂ ++ ")")) := by
        rw [← tokenize_delimiter (c := '|') rfl (by decide)]
        exact tokenize_group .round s₁ ("|" ++ ("(" ++ s₂ ++ ")"))
      rw [htext, parsePattern_eq_run, htokens, hsecond,
        run_first_group h₁ (Tree.starts_cons (by decide) _).1, Draft.run_cons]
      -- the bar has ended the alternative that holds the first group
      exact Draft.run_last_group (d := ⟨.grammar, slots₁, r₁, [], ⟨[[.required ps₁]], []⟩⟩) rfl h₂
        (b := .round) Bracket.noConfusion

/-- An option of the first pattern takes a bracket, and another one is registered, which the second
pattern knows; a bar is inside the first. -/
theorem parsePattern_compositional_sample :
    let whom : Opt := .ofLong "--to" 1
    let n : Opt := .ofShort "-n"
    let slots₁ : List Leaf := [.option (whom.given (.str "(")), .option n, .placeholder "FILE"]
    let ps₁ : List (Pattern Nat) :=
      [.either [.leaf 0, .required [.leaf 1, .oneOrMore (.leaf 2)]]]
    let slots₂ : List Leaf := [.option (n.given (.bool true)), .keyword "add"]
    parsePattern [whom] "--to ( | -n FILE..." = ⟨.ok ⟨slots₁, .required ps₁⟩, [whom, n]⟩ ∧
    parsePattern [whom, n] "-n add" = ⟨.ok ⟨slots₂, .required [.leaf 0, .leaf 1]⟩, [whom, n]⟩ ∧
    (tokenize "--to ( | -n FILE...").head? ≠ some "options" ∧
    parsePattern [whom] "(--to ( | -n FILE...)" = ⟨.ok ⟨slots₁, .required [.required ps₁]⟩, [whom, n]⟩ ∧
    parsePattern [whom] "(--to ( | -n FILE...)..." =
      ⟨.ok ⟨slots₁, .required [.oneOrMore (.required ps₁)]⟩, [whom, n]⟩ ∧
    parsePattern [whom] "[--to ( | -n FILE...]" = ⟨.ok ⟨slots₁, .required [.optional ps₁]⟩, [whom, n]⟩ ∧
    parsePattern [whom] "(--to ( | -n FILE...)(-n add)" =
      ⟨.ok ⟨slots₁ ++ slots₂, .required [.required ps₁, .required [.leaf 3, .leaf 4]]⟩, [whom, n]⟩ ∧
    parsePattern [whom] "(--to ( | -n FILE...)|(-n add)" =
      ⟨.ok ⟨slots₁ ++ slots₂, .required [.either [.required ps₁, .required [.leaf 3, .leaf 4]]]⟩,
        [whom, n]⟩ := by
  intro whom n slots₁ ps₁ slots₂
  have h₁ : parsePattern [whom] "--to ( | -n FILE..." = ⟨.ok ⟨slots₁, .required ps₁⟩, [whom, n]⟩ := by
    exact parsePattern_of_runWithin rfl
  have h₂ : parsePattern [whom, n] "-n add" =
      ⟨.ok ⟨slots₂, .required [.leaf 0, .leaf 1]⟩, [whom, n]⟩ := by
    exact parsePattern_of_runWithin rfl
  have hstart : (tokenize "--to ( | -n FILE...").head? ≠ some "options" := by decide
  obtain ⟨hgroups, hpairs⟩ := parsePattern_compositional [whom]
  obtain ⟨hround, hrepeated, hsquare⟩ := hgroups _ _ _ _ h₁
  obtain ⟨hsides, hchoice⟩ := hpairs _ _ _ _ _ _ _ _ h₁ h₂
  exact ⟨h₁, h₂, hstart, hround, hrepeated, hsquare hstart, hsides, hchoice⟩

end Synopsis
