import Synopsis.Matching.Basic

/-!
# The outcome of a choice

A choice tries all its parts from the same state and keeps the outcome that leaves least. This module
says which outcome that is without the fold that finds it: it is the outcome of one of the parts that
fit (`exists_mem_of_fewest`), and no part that fits leaves less (`length_fewest_le`). So a choice takes
every leaf exactly if one of its parts does (`isComplete_fewest_iff`), wherever that part stands, and the
first part that does is the one that counts (`fewest_append_of_isComplete`). In which order outcomes are
compared with each other does not matter (`better_better`), so the parts of a choice that is itself a
part compare as if they stood in its place (`better_fewest`).
-/

namespace Synopsis.Matcher

/-! ## The better of two outcomes -/

theorem better_eq_some {best : Option Outcome} {p o : Outcome} (h : better best p = some o) :
    (best = some o ∨ (p = o ∧ o.matched = true)) ∧
      (∀ b, best = some b → o.left.length ≤ b.left.length) ∧
      (p.matched = true → o.left.length ≤ p.left.length) := by
  unfold better at h
  split at h
  · split at h
    · next hp =>
      obtain rfl := Option.some.inj h
      refine ⟨Or.inr ⟨rfl, hp⟩, ?_, fun _ => Nat.le_refl _⟩
      intro b hb
      cases hb
    · cases h
  · next b =>
    split at h
    · next hp =>
      obtain rfl := Option.some.inj h
      obtain ⟨hmatched, hlt⟩ := Bool.and_eq_true_iff.mp hp
      have hlt := of_decide_eq_true hlt
      refine ⟨Or.inr ⟨rfl, hmatched⟩, ?_, fun _ => Nat.le_refl _⟩
      intro c hc
      obtain rfl := Option.some.inj hc
      exact Nat.le_of_lt hlt
    · next hp =>
      obtain rfl := Option.some.inj h
      refine ⟨Or.inl rfl, ?_, ?_⟩
      · intro c hc
        obtain rfl := Option.some.inj hc
        exact Nat.le_refl _
      · intro hmatched
        simp only [hmatched, Bool.true_and, decide_eq_true_eq] at hp
        omega

theorem better_eq_none {best : Option Outcome} {p : Outcome} (h : better best p = none) :
    best = none ∧ p.matched = false := by
  unfold better at h
  split at h
  · split at h
    · cases h
    · next hp => exact ⟨rfl, Bool.eq_false_iff.mpr hp⟩
  · split at h <;> cases h

theorem better_none {p : Outcome} (h : p.matched = true) : better none p = some p := if_pos h

theorem better_of_not_matched {p : Outcome} (h : p.matched = false) (best : Option Outcome) :
    better best p = best := by
  cases best with
  | none => simp [better, h]
  | some b => simp [better, h]

/-- Of three outcomes in a row it does not matter which two are compared first. -/
theorem better_better (best : Option Outcome) {p o : Outcome} (hp : p.matched = true)
    (ho : o.matched = true) :
    better (better best p) o = (better (some p) o).elim best (better best) := by
  cases best with
  | none => by_cases hop : o.left.length < p.left.length <;> simp [better, hp, ho, hop]
  | some b =>
    by_cases hpb : p.left.length < b.left.length <;> by_cases hop : o.left.length < p.left.length
    · have hob : o.left.length < b.left.length := by omega
      simp [better, hp, ho, hpb, hop, hob]
    · simp [better, hp, ho, hpb, hop]
    · simp [better, hp, ho, hpb, hop]
    · have hob : ¬ o.left.length < b.left.length := by omega
      simp [better, hp, ho, hpb, hop, hob]

/-! ## The best of a list of outcomes -/

theorem foldl_better_eq_some {os : List Outcome} {best : Option Outcome} {o : Outcome}
    (h : os.foldl better best = some o) :
    (best = some o ∨ (o ∈ os ∧ o.matched = true)) ∧
      (∀ b, best = some b → o.left.length ≤ b.left.length) ∧
      ∀ p ∈ os, p.matched = true → o.left.length ≤ p.left.length := by
  induction os generalizing best with
  | nil =>
    obtain rfl : best = some o := h
    refine ⟨Or.inl rfl, ?_, ?_⟩
    · intro b hb
      obtain rfl := Option.some.inj hb
      exact Nat.le_refl _
    · intro p hp
      cases hp
  | cons p os ih =>
    obtain ⟨hfrom, hbest, hos⟩ := ih h
    -- the best after the first outcome, from which the rest goes on
    cases hfirst : better best p with
    | none =>
      obtain ⟨rfl, hp⟩ := better_eq_none hfirst
      refine ⟨?_, ?_, ?_⟩
      · rcases hfrom with hnone | ⟨hmem, hmatched⟩
        · rw [hfirst] at hnone
          cases hnone
        · exact Or.inr ⟨List.mem_cons_of_mem p hmem, hmatched⟩
      · intro b hb
        cases hb
      · intro q hq hmatched
        rcases List.mem_cons.mp hq with rfl | hq
        · rw [hp] at hmatched
          cases hmatched
        · exact hos q hq hmatched
    | some c =>
      obtain ⟨hcfrom, hcbest, hcp⟩ := better_eq_some hfirst
      have hle : o.left.length ≤ c.left.length := hbest c hfirst
      refine ⟨?_, ?_, ?_⟩
      · rcases hfrom with hsome | ⟨hmem, hmatched⟩
        · rw [hfirst] at hsome
          obtain rfl := Option.some.inj hsome
          rcases hcfrom with hb | ⟨rfl, hmatched⟩
          · exact Or.inl hb
          · exact Or.inr ⟨List.mem_cons_self, hmatched⟩
        · exact Or.inr ⟨List.mem_cons_of_mem p hmem, hmatched⟩
      · intro b hb
        exact Nat.le_trans hle (hcbest b hb)
      · intro q hq hmatched
        rcases List.mem_cons.mp hq with rfl | hq
        · exact Nat.le_trans hle (hcp hmatched)
        · exact hos q hq hmatched

theorem foldl_better_eq_none {os : List Outcome} {best : Option Outcome}
    (h : os.foldl better best = none) : best = none ∧ ∀ p ∈ os, p.matched = false := by
  induction os generalizing best with
  | nil =>
    refine ⟨h, ?_⟩
    intro p hp
    cases hp
  | cons p os ih =>
    obtain ⟨hfirst, hos⟩ := ih h
    obtain ⟨hbest, hp⟩ := better_eq_none hfirst
    refine ⟨hbest, ?_⟩
    intro q hq
    rcases List.mem_cons.mp hq with rfl | hq
    · exact hp
    · exact hos q hq

/-- The best of a list of outcomes is one of them, and fits. -/
theorem mem_of_foldl_better {os : List Outcome} {o : Outcome} (h : os.foldl better none = some o) :
    o ∈ os ∧ o.matched = true := by
  rcases (foldl_better_eq_some h).1 with hnone | ho
  · cases hnone
  · exact ho

/-- The best of a list of outcomes may be found first, and then be compared with the best so far. -/
theorem foldl_better (os : List Outcome) (best : Option Outcome) :
    os.foldl better best = (os.foldl better none).elim best (better best) := by
  induction os generalizing best with
  | nil => rfl
  | cons p os ih =>
    rw [List.foldl_cons, List.foldl_cons, ih (better best p), ih (better none p)]
    cases hp : p.matched with
    | false => rw [better_of_not_matched hp, better_of_not_matched hp, ← ih best, ← ih none, ih best]
    | true =>
      rw [better_none hp]
      cases hrest : os.foldl better none with
      | none => rfl
      | some o => exact better_better best hp (mem_of_foldl_better hrest).2

/-! ## Choices -/

/-- The outcome of a choice that fits is the outcome of one of its parts, from the same state. -/
theorem exists_mem_of_fewest {ms : List Matcher} {s : MatchState}
    (h : (fewest ms s).matched = true) :
    ∃ m ∈ ms, (m s).matched = true ∧ fewest ms s = m s := by
  unfold fewest at h ⊢
  cases hbest : (ms.map fun m => m s).foldl better none with
  | none =>
    rw [hbest] at h
    cases h
  | some o =>
    obtain ⟨hmem, hmatched⟩ := mem_of_foldl_better hbest
    obtain ⟨m, hm, rfl⟩ := List.mem_map.mp hmem
    exact ⟨m, hm, hmatched, rfl⟩

/-- A choice of which no part fits hands back the state that it was given. -/
theorem fewest_of_not_matched {ms : List Matcher} {s : MatchState}
    (h : (fewest ms s).matched = false) : fewest ms s = .failure s := by
  unfold fewest at h ⊢
  cases hbest : (ms.map fun m => m s).foldl better none with
  | none => rfl
  | some o =>
    rw [hbest] at h
    exact absurd (mem_of_foldl_better hbest).2 (Bool.eq_false_iff.mp h)

/-- A choice is compared with the best so far as its parts are one by one. -/
theorem better_fewest (best : Option Outcome) (ms : List Matcher) (s : MatchState) :
    better best (fewest ms s) = (ms.map fun m => m s).foldl better best := by
  rw [foldl_better, fewest]
  cases (ms.map fun m => m s).foldl better none with
  | none => exact better_of_not_matched rfl best
  | some o => rfl

/-- If a part fits, the choice fits and leaves no more than that part does. -/
theorem length_fewest_le {ms : List Matcher} {s : MatchState} {m : Matcher} (hm : m ∈ ms)
    (h : (m s).matched = true) :
    (fewest ms s).matched = true ∧ (fewest ms s).left.length ≤ (m s).left.length := by
  have hmem : m s ∈ ms.map fun m => m s := List.mem_map_of_mem hm
  unfold fewest
  cases hbest : (ms.map fun m => m s).foldl better none with
  | none =>
    have hno := (foldl_better_eq_none hbest).2 _ hmem
    rw [hno] at h
    cases h
  | some o =>
    obtain ⟨-, -, hle⟩ := foldl_better_eq_some hbest
    exact ⟨(mem_of_foldl_better hbest).2, hle _ hmem h⟩

theorem isComplete_iff {o : Outcome} : o.isComplete = true ↔ o.matched = true ∧ o.left = [] := by
  rw [Outcome.isComplete, Bool.and_eq_true, List.isEmpty_iff]

/-- A choice takes every leaf exactly if one of its parts does. -/
theorem isComplete_fewest_iff {ms : List Matcher} {s : MatchState} :
    (fewest ms s).isComplete = true ↔ ∃ m ∈ ms, (m s).isComplete = true := by
  constructor
  · intro h
    obtain ⟨m, hm, -, heq⟩ := exists_mem_of_fewest (isComplete_iff.mp h).1
    exact ⟨m, hm, heq ▸ h⟩
  · rintro ⟨m, hm, h⟩
    obtain ⟨hmatched, hleft⟩ := isComplete_iff.mp h
    obtain ⟨hfits, hle⟩ := length_fewest_le hm hmatched
    rw [hleft, List.length_nil, Nat.le_zero, List.length_eq_zero_iff] at hle
    exact isComplete_iff.mpr ⟨hfits, hle⟩

/-- Nothing is better than an outcome that leaves nothing. -/
theorem foldl_better_of_left_eq_nil {o : Outcome} (h : o.left = []) (os : List Outcome) :
    os.foldl better (some o) = some o := by
  induction os with
  | nil => rfl
  | cons p os ih =>
    have hkeep : better (some o) p = some o := by simp [better, h]
    rw [List.foldl_cons, hkeep, ih]

/-- If a part takes every leaf and no part before it does, the outcome of the choice is the outcome of
that part. -/
theorem fewest_append_of_isComplete {ms : List Matcher} {m : Matcher} {s : MatchState}
    (hms : ∀ n ∈ ms, (n s).isComplete = false) (hm : (m s).isComplete = true) (ns : List Matcher) :
    fewest (ms ++ m :: ns) s = m s := by
  obtain ⟨hmatched, hleft⟩ := isComplete_iff.mp hm
  -- the best so far, if there is one, leaves a leaf
  have hbest : better ((ms.map fun n => n s).foldl better none) (m s) = some (m s) := by
    cases hbefore : (ms.map fun n => n s).foldl better none with
    | none => exact better_none hmatched
    | some b =>
      obtain ⟨hmem, hb⟩ := mem_of_foldl_better hbefore
      obtain ⟨n, hn, rfl⟩ := List.mem_map.mp hmem
      have hne : (n s).left ≠ [] := by
        intro hnil
        exact Bool.eq_false_iff.mp (hms n hn) (isComplete_iff.mpr ⟨hb, hnil⟩)
      have hpos : 0 < (n s).left.length := List.length_pos_iff.mpr hne
      simp [better, hmatched, hleft, hpos]
  rw [fewest, List.map_append, List.map_cons, List.foldl_append, List.foldl_cons, hbest,
    foldl_better_of_left_eq_nil hleft, Option.getD_some]

/-- All in order take every leaf exactly if they get through and nothing is left. -/
theorem isComplete_all_iff {ms : List Matcher} {s : MatchState} :
    (all ms s).isComplete = true ↔ ∃ t, chain? ms s = some t ∧ t.left = [] := by
  unfold all
  cases hchain : chain? ms s with
  | none => simp [isComplete_iff]
  | some t => simp [isComplete_iff, Outcome.success]

theorem isComplete_iff_chain? {m : Matcher} {s : MatchState} :
    (m s).isComplete = true ↔ ∃ t, chain? [m] s = some t ∧ t.left = [] := by
  rw [isComplete_iff]
  by_cases hm : (m s).matched = true
  · simp [chain?, hm]
  · simp [chain?, hm]

end Synopsis.Matcher
