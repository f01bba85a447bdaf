import Mathlib.Data.List.Forall2
import Synopsis.Matching.Pattern

/-!
# Matchers that agree

Two matchers agree along a relation between states if, from related states, both fit or both fail, and
the states that they end in are related again (`Matcher.Agree`). The ways to combine matchers keep
agreement. For a choice and for a repetition it matters that related states have equally many leaves
left: that number is all that either of them looks at. So two patterns of one shape agree as soon as
the leaves in their places do (`Pattern.agree_matcher`), and no property of two matches that is kept
leaf by leaf has to be followed through the groups again.
-/

namespace Synopsis

/-- The outcomes are alike: both matchers fitted or both failed, and the states are related. -/
structure Outcome.Alike (R : MatchState → MatchState → Prop) (o p : Outcome) : Prop where
  matched : o.matched = p.matched
  state : R o.toMatchState p.toMatchState

/-- **`Matcher.Agree R m n`**: from states related by `R`, the matchers have outcomes alike. -/
def Matcher.Agree (R : MatchState → MatchState → Prop) (m n : Matcher) : Prop :=
  ∀ s t, R s t → (m s).Alike R (n t)

namespace Matcher

variable {R : MatchState → MatchState → Prop}

/-! ## All in order, and each that fits -/

theorem rel_chain? {ms ns : List Matcher} (h : List.Forall₂ (Agree R) ms ns) {s t : MatchState}
    (hst : R s t) : Option.Rel R (chain? ms s) (chain? ns t) := by
  induction h generalizing s t with
  | nil => exact .some hst
  | @cons m n ms ns hmn _ ih =>
    obtain ⟨hmatched, hstate⟩ := hmn s t hst
    rw [chain?, chain?, ← hmatched]
    split
    · exact ih hstate
    · exact .none

theorem agree_all {ms ns : List Matcher} (h : List.Forall₂ (Agree R) ms ns) :
    Agree R (all ms) (all ns) := by
  intro s t hst
  have hchain := rel_chain? h hst
  unfold all
  match chain? ms s, chain? ns t, hchain with
  | _, _, .none => exact ⟨rfl, hst⟩
  | _, _, .some hend => exact ⟨rfl, hend⟩

theorem rel_passing {ms ns : List Matcher} (h : List.Forall₂ (Agree R) ms ns) {s t : MatchState}
    (hst : R s t) : R (passing ms s) (passing ns t) := by
  induction h generalizing s t with
  | nil => exact hst
  | @cons m n ms ns hmn _ ih =>
    obtain ⟨hmatched, hstate⟩ := hmn s t hst
    refine ih ?_
    rw [Outcome.stateOr, Outcome.stateOr, ← hmatched]
    split
    · exact hstate
    · exact hst

theorem agree_each {ms ns : List Matcher} (h : List.Forall₂ (Agree R) ms ns) :
    Agree R (each ms) (each ns) :=
  fun _ _ hst => ⟨rfl, rel_passing h hst⟩

/-! ## The one that leaves least, and one over and over -/

section Counting

variable (hlength : ∀ s t, R s t → s.left.length = t.left.length)

include hlength

theorem rel_better {best best' : Option Outcome} {o p : Outcome}
    (hbest : Option.Rel (Outcome.Alike R) best best') (ho : o.Alike R p) :
    Option.Rel (Outcome.Alike R) (better best o) (better best' p) := by
  cases hbest with
  | none =>
    rw [better, better, ← ho.matched]
    split
    · exact .some ho
    · exact .none
  | @some b c hbc =>
    rw [better, better, ← ho.matched, ← hlength _ _ ho.state, ← hlength _ _ hbc.state]
    split
    · exact .some ho
    · exact .some hbc

theorem rel_foldl_better {os ps : List Outcome} (h : List.Forall₂ (Outcome.Alike R) os ps)
    {best best' : Option Outcome} (hbest : Option.Rel (Outcome.Alike R) best best') :
    Option.Rel (Outcome.Alike R) (os.foldl better best) (ps.foldl better best') := by
  induction h generalizing best best' with
  | nil => exact hbest
  | cons ho _ ih => exact ih (rel_better hlength hbest ho)

omit hlength in
theorem alike_getD {best best' : Option Outcome} (h : Option.Rel (Outcome.Alike R) best best')
    {o p : Outcome} (ho : o.Alike R p) : (best.getD o).Alike R (best'.getD p) := by
  cases h with
  | none => exact ho
  | some hbest => exact hbest

theorem agree_fewest {ms ns : List Matcher} (h : List.Forall₂ (Agree R) ms ns) :
    Agree R (fewest ms) (fewest ns) := by
  intro s t hst
  have houtcomes : List.Forall₂ (Outcome.Alike R) (ms.map fun m => m s) (ns.map fun n => n t) := by
    rw [List.forall₂_map_left_iff, List.forall₂_map_right_iff]
    exact h.imp fun m n hmn => hmn s t hst
  exact alike_getD (rel_foldl_better hlength houtcomes .none) ⟨rfl, hst⟩

theorem rel_exhaust {m n : Matcher} (h : Agree R m n) {s t : MatchState} (hst : R s t) :
    R (exhaust m s) (exhaust n t) := by
  -- by the rounds of the first; the second stops when the first does
  fun_induction exhaust m s generalizing t with
  | case1 s hmatched hless ih =>
    obtain ⟨hsame, hstate⟩ := h s t hst
    rw [hsame] at hmatched
    rw [hlength _ _ hstate, hlength _ _ hst] at hless
    rw [exhaust_of_lt hmatched hless]
    exact ih hstate
  | case2 s hmatched hless =>
    obtain ⟨hsame, hstate⟩ := h s t hst
    rw [hsame] at hmatched
    rw [hlength _ _ hstate, hlength _ _ hst] at hless
    rw [exhaust_of_not_lt hmatched hless]
    exact hstate
  | case3 s hmatched =>
    rw [(h s t hst).matched] at hmatched
    rw [exhaust_of_not_matched hmatched]
    exact hst

theorem agree_many {m n : Matcher} (h : Agree R m n) : Agree R (many m) (many n) := by
  intro s t hst
  obtain ⟨hmatched, hstate⟩ := h s t hst
  rw [many, many, ← hmatched]
  split
  · exact ⟨rfl, rel_exhaust hlength h hstate⟩
  · exact ⟨rfl, hst⟩

end Counting

end Matcher

/-! ## Patterns of one shape -/

/-- **Patterns of one shape agree if their leaves do.** -/
theorem Pattern.agree_matcher {α : Type} {R : MatchState → MatchState → Prop}
    (hlength : ∀ s t, R s t → s.left.length = t.left.length) {f g : α → Leaf} {p : Pattern α}
    (h : ∀ a ∈ p.flat, Matcher.Agree R (f a).matcher (g a).matcher) :
    Matcher.Agree R (p.map f).matcher (p.map g).matcher := by
  -- the children of a group agree one by one
  have hgroup : ∀ ps : List (Pattern α),
      (∀ q ∈ ps, (∀ a ∈ q.flat, Matcher.Agree R (f a).matcher (g a).matcher) →
        Matcher.Agree R (q.map f).matcher (q.map g).matcher) →
      (∀ a ∈ flatAll ps, Matcher.Agree R (f a).matcher (g a).matcher) →
      List.Forall₂ (Matcher.Agree R) (matchers (mapAll f ps)) (matchers (mapAll g ps)) := by
    intro ps ih hleaves
    rw [matchers_eq_map, matchers_eq_map, mapAll_eq_map, mapAll_eq_map, List.map_map, List.map_map]
    rw [List.forall₂_map_left_iff, List.forall₂_map_right_iff, List.forall₂_same]
    intro q hq
    refine ih q hq ?_
    intro a ha
    exact hleaves a (mem_flatAll.mpr ⟨q, hq, ha⟩)
  induction p using Pattern.ind with
  | leaf a => exact h a List.mem_cons_self
  | required ps ih => exact Matcher.agree_all (hgroup ps ih h)
  | optional ps ih => exact Matcher.agree_each (hgroup ps ih h)
  | either ps ih => exact Matcher.agree_fewest hlength (hgroup ps ih h)
  | oneOrMore p ih => exact Matcher.agree_many hlength (ih h)

end Synopsis
