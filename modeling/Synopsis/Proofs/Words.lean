import Mathlib.Computability.Language
import Synopsis.Matching.Pattern
import Synopsis.Proofs.Choices

/-!
# The words of a pattern

A pattern reads as a regular expression over its leaves: a group in order is a concatenation, an
optional part may be left out, a choice is a union and a repetition is one word after another. This
module says what it means that a matcher follows a language (`Matcher.Follows`): whenever it fits,
some word of the language leads, leaf by leaf and with no leaf failing, from the state it was given
to exactly the state it ends with. Every way to combine matchers follows the language built in the
same way, so the matcher of a pattern follows the words of the pattern. Work done for an alternative
that lost, or for a round that failed, is not in the word and hence not in the result.
-/

namespace Synopsis

open Computability

/-! ## The language of a pattern -/

namespace Pattern

variable {α : Type}

mutual

/-- **`words p`**: the leaf sequences that `p` stands for as a regular expression. -/
def words : Pattern α → Language α
  | leaf a => {[a]}
  | required ps => (wordsEach ps).prod
  | optional ps => ((wordsEach ps).map (1 + ·)).prod
  | either ps => (wordsEach ps).sum
  | oneOrMore p => p.words * p.words∗

/-- The languages of several patterns. -/
def wordsEach : List (Pattern α) → List (Language α)
  | [] => []
  | p :: ps => p.words :: wordsEach ps

end

theorem wordsEach_eq_map (ps : List (Pattern α)) : wordsEach ps = ps.map words := by
  induction ps with
  | nil => rfl
  | cons p ps ih => rw [wordsEach, ih, List.map_cons]

/-- A word of a concatenation is made of words of its parts. -/
theorem exists_mem_of_mem_prod {Ls : List (Language α)} {w : List α} (hw : w ∈ Ls.prod) {a : α}
    (ha : a ∈ w) : ∃ L ∈ Ls, ∃ v ∈ L, a ∈ v := by
  induction Ls generalizing w with
  | nil =>
    obtain rfl : w = [] := hw
    cases ha
  | cons L Ls ih =>
    rw [List.prod_cons, Language.mem_mul] at hw
    obtain ⟨u, hu, v, hv, rfl⟩ := hw
    rcases List.mem_append.mp ha with ha | ha
    · exact ⟨L, List.mem_cons_self, u, hu, ha⟩
    · obtain ⟨M, hM, hrest⟩ := ih hv ha
      exact ⟨M, List.mem_cons_of_mem L hM, hrest⟩

theorem exists_mem_of_mem_sum {Ls : List (Language α)} {w : List α} (hw : w ∈ Ls.sum) :
    ∃ L ∈ Ls, w ∈ L := by
  induction Ls with
  | nil => exact absurd hw (Language.notMem_zero w)
  | cons L Ls ih =>
    rw [List.sum_cons, Language.mem_add] at hw
    rcases hw with hw | hw
    · exact ⟨L, List.mem_cons_self, hw⟩
    · obtain ⟨M, hM, hmem⟩ := ih hw
      exact ⟨M, List.mem_cons_of_mem L hM, hmem⟩

/-- A word of a pattern is made of leaves of the pattern. -/
theorem mem_flat_of_mem_words {p : Pattern α} {w : List α} (hw : w ∈ p.words) {a : α}
    (ha : a ∈ w) : a ∈ p.flat := by
  induction p using Pattern.ind generalizing w with
  | leaf b =>
    obtain rfl : w = [b] := hw
    exact ha
  | required ps ih =>
    rw [words, wordsEach_eq_map] at hw
    obtain ⟨L, hL, v, hv, hav⟩ := exists_mem_of_mem_prod hw ha
    obtain ⟨p, hp, rfl⟩ := List.mem_map.mp hL
    rw [flat, mem_flatAll]
    exact ⟨p, hp, ih p hp hv hav⟩
  | optional ps ih =>
    rw [words, wordsEach_eq_map, List.map_map] at hw
    obtain ⟨L, hL, v, hv, hav⟩ := exists_mem_of_mem_prod hw ha
    obtain ⟨p, hp, rfl⟩ := List.mem_map.mp hL
    rw [flat, mem_flatAll]
    rcases hv with hv | hv
    · obtain rfl : v = [] := hv
      cases hav
    · exact ⟨p, hp, ih p hp hv hav⟩
  | either ps ih =>
    rw [words, wordsEach_eq_map] at hw
    obtain ⟨L, hL, hmem⟩ := exists_mem_of_mem_sum hw
    obtain ⟨p, hp, rfl⟩ := List.mem_map.mp hL
    rw [flat, mem_flatAll]
    exact ⟨p, hp, ih p hp hmem ha⟩
  | oneOrMore p ih =>
    obtain ⟨u, hu, v, hv, rfl⟩ := Language.mem_mul.mp hw
    rcases List.mem_append.mp ha with ha | ha
    · exact ih hu ha
    · obtain ⟨rounds, rfl, hrounds⟩ := Language.mem_kstar.mp hv
      obtain ⟨r, hr, har⟩ := List.mem_flatten.mp ha
      exact ih (hrounds r hr) har

end Pattern

/-! ## Matchers that follow a language -/

namespace Matcher

variable {α : Type}

/-- **`Follows step m L`**: whenever `m` fits, the steps of some word of `L` all fit one after the
other and end in the very state that `m` ends in. -/
def Follows (step : α → Matcher) (m : Matcher) (L : Language α) : Prop :=
  ∀ s, (m s).matched = true → ∃ w ∈ L, chain? (w.map step) s = some (m s).toMatchState

variable {step : α → Matcher}

theorem chain?_map_append {v w : List α} {s t u : MatchState}
    (hv : chain? (v.map step) s = some t) (hw : chain? (w.map step) t = some u) :
    chain? ((v ++ w).map step) s = some u := by
  rw [List.map_append, chain?_append, hv]
  exact hw

theorem follows_single (a : α) : Follows step (step a) {[a]} := by
  intro s hs
  refine ⟨[a], rfl, ?_⟩
  simp only [List.map_cons, List.map_nil, chain?, hs, if_true]

/-- All in order: the words of the parts stand one after the other. -/
theorem follows_all {ms : List Matcher} {Ls : List (Language α)}
    (h : List.Forall₂ (Follows step) ms Ls) : Follows step (all ms) Ls.prod := by
  suffices hc : ∀ s t, chain? ms s = some t →
      ∃ w ∈ Ls.prod, chain? (w.map step) s = some t by
    intro s hs
    unfold all at hs ⊢
    split at hs
    · next t ht => exact hc s t ht
    · simp at hs
  induction h with
  | nil =>
    intro s t hst
    exact ⟨[], Language.nil_mem_one, hst⟩
  | @cons m L ms Ls hm _ ih =>
    intro s t hst
    simp only [chain?] at hst
    split at hst
    · next hmatched =>
      obtain ⟨v, hv, hrun⟩ := hm s hmatched
      obtain ⟨w, hw, hrest⟩ := ih _ t hst
      refine ⟨v ++ w, ?_, chain?_map_append hrun hrest⟩
      rw [List.prod_cons]
      exact Language.append_mem_mul hv hw
    · simp at hst

/-- Each that fits: a part that does not fit gives the empty word. -/
theorem follows_each {ms : List Matcher} {Ls : List (Language α)}
    (h : List.Forall₂ (Follows step) ms Ls) :
    Follows step (each ms) (Ls.map (1 + ·)).prod := by
  suffices hc : ∀ s, ∃ w ∈ (Ls.map (1 + ·)).prod,
      chain? (w.map step) s = some (passing ms s) from
    fun s _ => hc s
  induction h with
  | nil =>
    intro s
    exact ⟨[], Language.nil_mem_one, rfl⟩
  | @cons m L ms Ls hm _ ih =>
    intro s
    -- the word of the first part, empty if the part is passed over
    have hfirst : ∃ v ∈ 1 + L, chain? (v.map step) s = some ((m s).stateOr s) := by
      by_cases hmatched : (m s).matched = true
      · obtain ⟨v, hv, hrun⟩ := hm s hmatched
        refine ⟨v, Or.inr hv, ?_⟩
        rw [hrun, Outcome.stateOr, if_pos hmatched]
      · refine ⟨[], Or.inl rfl, ?_⟩
        rw [Outcome.stateOr, if_neg hmatched]
        rfl
    obtain ⟨v, hv, hrun⟩ := hfirst
    obtain ⟨w, hw, hrest⟩ := ih ((m s).stateOr s)
    refine ⟨v ++ w, ?_, chain?_map_append hrun hrest⟩
    rw [List.map_cons, List.prod_cons]
    exact Language.append_mem_mul hv hw

/-- The one that leaves least: a word of the part that won. -/
theorem follows_fewest {ms : List Matcher} {Ls : List (Language α)}
    (h : List.Forall₂ (Follows step) ms Ls) : Follows step (fewest ms) Ls.sum := by
  intro s hs
  obtain ⟨m, hm, hmatched, heq⟩ := exists_mem_of_fewest hs
  rw [heq]
  clear heq hs
  induction h with
  | nil => cases hm
  | @cons n L ns Ls hn _ ih =>
    rw [List.sum_cons]
    rcases List.mem_cons.mp hm with rfl | hm
    · obtain ⟨w, hw, hrun⟩ := hn s hmatched
      exact ⟨w, Or.inl hw, hrun⟩
    · obtain ⟨w, hw, hrun⟩ := ih hm
      exact ⟨w, Or.inr hw, hrun⟩

/-- Over and over: the rounds after the first give a word of the star. -/
theorem follows_exhaust {m : Matcher} {L : Language α} (h : Follows step m L) (s : MatchState) :
    ∃ w ∈ L∗, chain? (w.map step) s = some (exhaust m s) := by
  fun_induction exhaust m s with
  | case1 s hmatched _ ih =>
    obtain ⟨v, hv, hrun⟩ := h s hmatched
    obtain ⟨w, hw, hrest⟩ := ih
    refine ⟨v ++ w, ?_, chain?_map_append hrun hrest⟩
    rw [← Language.one_add_self_mul_kstar_eq_kstar]
    exact Or.inr (Language.append_mem_mul hv hw)
  | case2 s hmatched _ =>
    -- the last round fits and takes nothing: it still is a word of its own
    obtain ⟨v, hv, hrun⟩ := h s hmatched
    refine ⟨v, ?_, hrun⟩
    rw [← List.append_nil v, ← Language.one_add_self_mul_kstar_eq_kstar]
    exact Or.inr (Language.append_mem_mul hv (Language.nil_mem_kstar L))
  | case3 s _ => exact ⟨[], Language.nil_mem_kstar L, rfl⟩

theorem follows_many {m : Matcher} {L : Language α} (h : Follows step m L) :
    Follows step (many m) (L * L∗) := by
  intro s hs
  by_cases hmatched : (m s).matched = true
  · rw [many_of_matched hmatched]
    obtain ⟨v, hv, hrun⟩ := h s hmatched
    obtain ⟨w, hw, hrest⟩ := follows_exhaust h (m s).toMatchState
    exact ⟨v ++ w, Language.append_mem_mul hv hw, chain?_map_append hrun hrest⟩
  · rw [many_of_not_matched hmatched] at hs
    cases hs

end Matcher

/-! ## The matcher of a pattern follows its words -/

namespace Pattern

variable {α : Type}

/-- Whatever the leaves stand for, the matcher of the pattern follows the pattern's words. -/
theorem follows_matcher (f : α → Leaf) (p : Pattern α) :
    Matcher.Follows (fun a => (f a).matcher) (p.map f).matcher p.words := by
  -- a group follows its words as soon as its children do
  have hgroup : ∀ ps : List (Pattern α),
      (∀ p ∈ ps, Matcher.Follows (fun a => (f a).matcher) (p.map f).matcher p.words) →
      List.Forall₂ (Matcher.Follows fun a => (f a).matcher) (matchers (mapAll f ps))
        (wordsEach ps) := by
    intro ps ih
    rw [matchers_eq_map, mapAll_eq_map, wordsEach_eq_map, List.map_map]
    rw [List.forall₂_map_left_iff, List.forall₂_map_right_iff, List.forall₂_same]
    exact ih
  induction p using Pattern.ind with
  | leaf a => exact Matcher.follows_single a
  | required ps ih => exact Matcher.follows_all (hgroup ps ih)
  | optional ps ih => exact Matcher.follows_each (hgroup ps ih)
  | either ps ih => exact Matcher.follows_fewest (hgroup ps ih)
  | oneOrMore p ih => exact Matcher.follows_many ih

end Pattern

/-- **Matching is sound for the words of a pattern.** If a part of a tree fits, some word of the
part leads through its leaves, none of which fails, from the leaves and bindings given to exactly
those that the match ends with. -/
theorem Tree.exists_word_of_matchNode (t : Tree) (node : Pattern Nat) (left collected : List Leaf)
    (h : (t.matchNode node left collected).matched = true) :
    ∃ w ∈ node.words,
      Matcher.chain? (w.map fun i => (t.leafAt i).matcher) ⟨left, collected⟩ =
        some (t.matchNode node left collected).toMatchState :=
  node.follows_matcher t.leafAt ⟨left, collected⟩ h

/-- A tree for `[-f] (cp | cp FILE...)`. -/
def Tree.copying : Tree :=
  ⟨[.keyword "cp", .placeholder "FILE", .option (.ofShort "-f")],
    .required [.optional [.leaf 2],
      .either [.leaf 0, .required [.leaf 0, .oneOrMore (.leaf 1)]]]⟩

/-- The second alternative wins, its repetition takes two words, and the option stands between. -/
theorem Tree.exists_word_of_copying :
    let left := [.positional "cp", .positional "a", .option (.ofShort "-f"), .positional "b"]
    (copying.matchNode copying.root left []).matched = true ∧
      ∃ w ∈ copying.root.words,
        Matcher.chain? (w.map fun i => (copying.leafAt i).matcher) ⟨left, []⟩ =
          some (copying.matchNode copying.root left []).toMatchState := by
  intro left
  have h : (copying.matchNode copying.root left []).matched = true := by cbv
  exact ⟨h, Tree.exists_word_of_matchNode copying copying.root left [] h⟩

end Synopsis
