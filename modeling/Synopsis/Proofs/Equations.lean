import Synopsis.Proofs.Consumption

/-!
# Patterns that match alike

Two parts of a tree match alike if they have the same outcome from any leaves and bindings
(`Tree.MatchAlike`). A sequence in a sequence and a choice in a choice may be opened, an optional group
is the sequence of its children made optional one by one, a repeated optional part is an optional
repeated one, and to repeat a repetition is to repeat (`Tree.matchAlike_laws`). Since a group sees its
children only through their outcomes, the laws hold inside any pattern.

Each law is one of matchers. Those for sequences, optional groups and choices hold of all matchers. That
a repetition may be repeated does not: it takes a matcher that does nothing where it takes nothing
(`Matcher.Progresses`), as the matcher of a pattern does.
-/

namespace Synopsis

namespace Matcher

/-! ## Sequences -/

theorem all_congr {ms ns : List Matcher} (h : chain? ms = chain? ns) : all ms = all ns := by
  funext s
  rw [all, all, h]

theorem chain?_all (ms : List Matcher) : chain? [all ms] = chain? ms := by
  funext s
  rw [chain?, all]
  cases chain? ms s with
  | none => rfl
  | some t => rfl

/-- A sequence in a sequence may be opened. -/
theorem all_append_all (ms ns ls : List Matcher) : all (ms ++ [all ns] ++ ls) = all (ms ++ ns ++ ls) := by
  refine all_congr ?_
  funext s
  rw [chain?_append, chain?_append, chain?_append, chain?_append, chain?_all]

/-- A sequence of one matcher is the matcher, if that hands back its state when it fails. -/
theorem all_singleton {m : Matcher} (h : ∀ s, (m s).matched = false → m s = .failure s) :
    all [m] = m := by
  funext s
  rw [all, chain?]
  cases hm : (m s).matched with
  | false => exact (h s hm).symm
  | true =>
    show Outcome.mk (m s).toMatchState true = m s
    rw [← hm]

/-! ## Optional groups -/

theorem chain?_map_each (ms : List Matcher) (s : MatchState) :
    chain? (ms.map fun m => each [m]) s = some (passing ms s) := by
  induction ms generalizing s with
  | nil => rfl
  | cons m ms ih => exact ih ((m s).stateOr s)

/-- An optional group is the sequence of its children made optional one by one. -/
theorem each_eq_all (ms : List Matcher) : each ms = all (ms.map fun m => each [m]) := by
  funext s
  rw [all, chain?_map_each]
  rfl

/-! ## Choices -/

/-- A choice in a choice may be opened. -/
theorem fewest_append_fewest (ms ns ls : List Matcher) :
    fewest (ms ++ [fewest ns] ++ ls) = fewest (ms ++ ns ++ ls) := by
  funext s
  rw [fewest, fewest]
  simp only [List.map_append, List.foldl_append, List.map_cons, List.map_nil, List.foldl_cons,
    List.foldl_nil, better_fewest]

/-! ## Repetitions -/

theorem each_of_matched {m : Matcher} {s : MatchState} (h : (m s).matched = true) :
    each [m] s = .success (m s).toMatchState :=
  congrArg Outcome.success (if_pos h)

theorem each_of_not_matched {m : Matcher} {s : MatchState} (h : ¬ (m s).matched = true) :
    each [m] s = .success s :=
  congrArg Outcome.success (if_neg h)

/-- A round that may fail ends the rounds where a round that fails does: it takes nothing there. -/
theorem exhaust_each (m : Matcher) (s : MatchState) : exhaust (each [m]) s = exhaust m s := by
  fun_induction exhaust m s with
  | case1 s hmatched hlt ih =>
    have hround := each_of_matched hmatched
    rw [exhaust_of_lt rfl (by rw [hround]; exact hlt), hround]
    exact ih
  | case2 s hmatched hlt =>
    have hround := each_of_matched hmatched
    rw [exhaust_of_not_lt rfl (by rw [hround]; exact hlt), hround, Outcome.state_success]
  | case3 s hmatched =>
    have hround := each_of_not_matched hmatched
    rw [exhaust_of_not_lt rfl (by rw [hround]; exact Nat.lt_irrefl _), hround, Outcome.state_success]

/-- To repeat an optional part is to leave out or to repeat the part. -/
theorem many_each (m : Matcher) : many (each [m]) = each [many m] := by
  funext s
  rw [many_of_matched rfl, exhaust_each]
  by_cases hmatched : (m s).matched = true
  · have hmany := many_of_matched hmatched
    rw [each_of_matched hmatched, each_of_matched (congrArg Outcome.matched hmany), hmany,
      Outcome.state_success, Outcome.state_success]
  · have hmany : ¬ (many m s).matched = true := by rwa [matched_many]
    rw [each_of_not_matched hmatched, each_of_not_matched hmany, Outcome.state_success,
      exhaust_of_not_matched hmatched]

/-- Where a round fails or does nothing, the rounds end. -/
theorem exhaust_eq_self {m : Matcher} {s : MatchState}
    (h : (m s).matched = true → (m s).toMatchState = s) : exhaust m s = s := by
  by_cases hmatched : (m s).matched = true
  · have hsame := h hmatched
    rw [exhaust_of_not_lt hmatched (by rw [hsame]; exact Nat.lt_irrefl _), hsame]
  · exact exhaust_of_not_matched hmatched

/-- Where the rounds end, one more round fails or does nothing. -/
theorem state_exhaust {m : Matcher} (hm : m.Progresses) (s : MatchState)
    (h : (m (exhaust m s)).matched = true) :
    (m (exhaust m s)).toMatchState = exhaust m s := by
  fun_induction exhaust m s with
  | case1 s _ _ ih => exact ih h
  | case2 s hmatched hlt =>
    -- the last round took nothing, so it did nothing
    have hsame : (m s).toMatchState = s := (hm s hmatched).resolve_right hlt
    rw [hsame, hsame]
  | case3 s hmatched => exact absurd h hmatched

/-- To repeat a repetition is to repeat. -/
theorem many_many {m : Matcher} (hm : m.Progresses) : many (many m) = many m := by
  funext s
  by_cases hmatched : (m s).matched = true
  · have hfirst := many_of_matched hmatched
    -- the first repetition has gone as far as it can, so a second one stays where it is
    have hstay : ∀ u, u = exhaust m (m s).toMatchState → exhaust (many m) u = u := by
      intro u hu
      refine exhaust_eq_self ?_
      intro hagain
      rw [matched_many] at hagain
      have hround : (m u).toMatchState = u := by
        rw [hu] at hagain ⊢
        exact state_exhaust hm _ hagain
      rw [many_of_matched hagain, Outcome.state_success, hround]
      exact exhaust_eq_self fun _ => hround
    rw [many_of_matched (congrArg Outcome.matched hfirst), hfirst, Outcome.state_success,
      hstay _ rfl]
  · have hnone := many_of_not_matched hmatched
    have hagain : ¬ (many m s).matched = true := by rwa [matched_many]
    rw [hnone, many_of_not_matched hagain]

end Matcher

/-! ## Parts of a tree -/

namespace Tree

variable {t : Tree} {p q : Pattern Nat}

/-- **`t.MatchAlike p q`**: from any leaves and bindings the two parts of the tree have the same outcome:
both fit or both fail, they leave the same leaves and end with the same bindings. -/
def MatchAlike (t : Tree) (p q : Pattern Nat) : Prop :=
  ∀ left collected, t.matchNode p left collected = t.matchNode q left collected

theorem matchAlike_iff : t.MatchAlike p q ↔ (t.resolve p).matcher = (t.resolve q).matcher := by
  constructor
  · intro h
    funext s
    exact h s.left s.collected
  · intro h left collected
    rw [matchNode, matchNode, h]

end Tree

/-- **`Replaced p q a b`**: `b` is `a` with `q` in one place where `a` has `p`. -/
inductive Pattern.Replaced {α : Type} (p q : Pattern α) : Pattern α → Pattern α → Prop
  | here : Replaced p q p q
  | required {a b : Pattern α} (before : List (Pattern α)) (h : Replaced p q a b)
      (after : List (Pattern α)) :
      Replaced p q (.required (before ++ a :: after)) (.required (before ++ b :: after))
  | optional {a b : Pattern α} (before : List (Pattern α)) (h : Replaced p q a b)
      (after : List (Pattern α)) :
      Replaced p q (.optional (before ++ a :: after)) (.optional (before ++ b :: after))
  | either {a b : Pattern α} (before : List (Pattern α)) (h : Replaced p q a b)
      (after : List (Pattern α)) :
      Replaced p q (.either (before ++ a :: after)) (.either (before ++ b :: after))
  | oneOrMore {a b : Pattern α} (h : Replaced p q a b) : Replaced p q (.oneOrMore a) (.oneOrMore b)

namespace Tree

variable {t : Tree} {p q : Pattern Nat}

/-- A part may be replaced by one that matches alike, whatever stands around it. -/
theorem MatchAlike.replaced (h : t.MatchAlike p q) {a b : Pattern Nat} (hab : Pattern.Replaced p q a b) :
    t.MatchAlike a b := by
  induction hab with
  | here => exact h
  | required before _ after ih =>
    rw [matchAlike_iff] at ih ⊢
    rw [matcher_required, matcher_required, List.map_append, List.map_append, List.map_cons,
      List.map_cons, ih]
  | optional before _ after ih =>
    rw [matchAlike_iff] at ih ⊢
    rw [matcher_optional, matcher_optional, List.map_append, List.map_append, List.map_cons,
      List.map_cons, ih]
  | either before _ after ih =>
    rw [matchAlike_iff] at ih ⊢
    rw [matcher_either, matcher_either, List.map_append, List.map_append, List.map_cons,
      List.map_cons, ih]
  | oneOrMore _ ih =>
    rw [matchAlike_iff] at ih ⊢
    rw [matcher_oneOrMore, matcher_oneOrMore, ih]

/-- A sequence of one part and the part match alike. -/
theorem matchAlike_singleton (t : Tree) (p : Pattern Nat) : t.MatchAlike (.required [p]) p := by
  rw [matchAlike_iff]
  exact Matcher.all_singleton fun s hs => Pattern.matcher_of_not_matched hs

/-- **Laws of matching.** In any tree, and from any leaves and bindings, these have the same outcome: a
sequence with a sequence in it and the sequence with that one opened; a choice with a choice in it and
the choice with that one opened; an optional group and the sequence of its children made optional one by
one; a repeated optional part and the optional repeated part; a repeated repetition and the repetition; a
sequence of one part and the part. What has the same outcome may be exchanged in any place of a
pattern. -/
theorem matchAlike_laws (t : Tree) :
    (∀ as bs cs, t.MatchAlike (.required (as ++ [.required bs] ++ cs)) (.required (as ++ bs ++ cs))) ∧
    (∀ as bs cs, t.MatchAlike (.either (as ++ [.either bs] ++ cs)) (.either (as ++ bs ++ cs))) ∧
    (∀ ps, t.MatchAlike (.optional ps) (.required (ps.map fun p => .optional [p]))) ∧
    (∀ p, t.MatchAlike (.oneOrMore (.optional [p])) (.optional [.oneOrMore p])) ∧
    (∀ p, t.MatchAlike (.oneOrMore (.oneOrMore p)) (.oneOrMore p)) ∧
    (∀ p, t.MatchAlike (.required [p]) p) ∧
    ∀ p q, t.MatchAlike p q → ∀ a b, Pattern.Replaced p q a b → t.MatchAlike a b := by
  refine ⟨?_, ?_, ?_, ?_, ?_, ?_, ?_⟩
  · intro as bs cs
    rw [matchAlike_iff, matcher_required, matcher_required]
    simp only [List.map_append, List.map_cons, List.map_nil, matcher_required]
    exact Matcher.all_append_all _ _ _
  · intro as bs cs
    rw [matchAlike_iff, matcher_either, matcher_either]
    simp only [List.map_append, List.map_cons, List.map_nil, matcher_either]
    exact Matcher.fewest_append_fewest _ _ _
  · intro ps
    rw [matchAlike_iff, matcher_optional, matcher_required, Matcher.each_eq_all, List.map_map,
      List.map_map]
    rfl
  · intro p
    rw [matchAlike_iff]
    exact Matcher.many_each _
  · intro p
    rw [matchAlike_iff]
    exact Matcher.many_many (p.progresses_matcher t.leafAt)
  · exact t.matchAlike_singleton
  · intro p q h a b hab
    exact h.replaced hab

/-- In a tree for `add [(NAME)]... | rm` the repetition is moved into the brackets and the parentheses are
dropped, one after the other, inside the first of two alternatives. -/
theorem matchAlike_laws_sample :
    let t : Tree := ⟨[.keyword "add", .placeholder "NAME", .keyword "rm"], .required []⟩
    let line (p : Pattern Nat) : Pattern Nat := .required [.either [.required [.leaf 0, p], .leaf 2]]
    let inner : Pattern Nat := .required [.leaf 1]
    t.MatchAlike (.oneOrMore (.optional [inner])) (.optional [.oneOrMore inner]) ∧
    Pattern.Replaced (.oneOrMore (.optional [inner])) (.optional [.oneOrMore inner])
      (line (.oneOrMore (.optional [inner]))) (line (.optional [.oneOrMore inner])) ∧
    t.MatchAlike (line (.oneOrMore (.optional [inner]))) (line (.optional [.oneOrMore (.leaf 1)])) := by
  intro t line inner
  obtain ⟨-, -, -, hmove, -, hdrop, hanywhere⟩ := t.matchAlike_laws
  have hline : ∀ {p q a b : Pattern Nat}, Pattern.Replaced p q a b →
      Pattern.Replaced p q (line a) (line b) :=
    fun h => .required [] (.either [] (.required [.leaf 0] h []) [.leaf 2]) []
  have hmoved := hanywhere _ _ (hmove inner) _ _ (hline .here)
  have hdropped := hanywhere _ _ (hdrop (.leaf 1)) _ _ (hline (.optional [] (.oneOrMore .here) []))
  refine ⟨hmove inner, hline .here, ?_⟩
  intro left collected
  exact (hmoved left collected).trans (hdropped left collected)

end Tree

end Synopsis
