import Mathlib.Logic.Relation
import Synopsis.Proofs.Groups

/-!
# The expansion as a queue of groups

The expansion of a pattern can be run with a queue of groups. Each turn takes the first group off the
queue. If nothing in it can be opened, it is done; if not, one pattern of it is opened and the groups
that come of it go to the end of the queue (`Worklist.Turn`). A turn has no rule for a leaf that is to be
opened, so that a queue that picked one would be stuck.

It never is (`Worklist.exists_turn`), and no run goes on forever, for each turn makes the queue lighter
(`Worklist.Turn.totalWeight_lt`). A queue is first in, first out, so it goes through the groups level by
level, and what it ends with are the finished groups of all levels in order
(`Worklist.run_expandLevels`). Hence the main statement (`Pattern.expansion_run`): the run of the queue on
a pattern ends with groups of leaves only, they are the choices of its expansion, and with all order
forgotten they are the ways through the pattern.
-/

namespace Synopsis.Pattern

variable {α : Type}

open Relation (ReflTransGen)

/-- An expansion at work. -/
structure Worklist (α : Type) where
  /-- The groups in which nothing is left to be opened. -/
  done : List (List (Pattern α))
  /-- The groups that wait, the next one first. -/
  waiting : List (List (Pattern α))

namespace Worklist

/-- The queue to start with: the pattern in a group of its own. -/
def start (p : Pattern α) : Worklist α := ⟨[], [[p]]⟩

/-- **One turn.** The first group of the queue is done, or a pattern of it that is no leaf is opened. -/
inductive Turn : Worklist α → Worklist α → Prop
  | finish {done waiting : List (List (Pattern α))} {g : List (Pattern α)} (h : next? g = none) :
      Turn ⟨done, g :: waiting⟩ ⟨done ++ [g], waiting⟩
  | opening {done waiting : List (List (Pattern α))} {g rest : List (Pattern α)} {p : Pattern α}
      (h : next? g = some (p, rest)) (hp : ∀ a, p ≠ leaf a) :
      Turn ⟨done, g :: waiting⟩ ⟨done, waiting ++ openBeside rest p⟩

/-! ## Turns -/

/-- What is to be opened next is no leaf. -/
theorem ne_leaf_of_next? {g rest : List (Pattern α)} {p : Pattern α} (h : next? g = some (p, rest))
    (a : α) : p ≠ leaf a := by
  rintro rfl
  obtain ⟨kind, hkind, hextract⟩ := extract?_of_next? h
  have hleaf := extract?_kind hextract
  simp only [List.mem_cons, List.not_mem_nil, or_false] at hkind
  rcases hkind with rfl | rfl | rfl | rfl <;> exact Bool.false_ne_true hleaf

/-- As long as a group waits, there is a turn to make. -/
theorem exists_turn {w : Worklist α} (h : w.waiting ≠ []) : ∃ v, Turn w v := by
  obtain ⟨done, waiting⟩ := w
  cases waiting with
  | nil => exact absurd rfl h
  | cons g waiting =>
    cases hnext : next? g with
    | none => exact ⟨_, .finish hnext⟩
    | some r => exact ⟨_, .opening hnext (ne_leaf_of_next? hnext)⟩

theorem Turn.unique {w v v' : Worklist α} (h : Turn w v) (h' : Turn w v') : v = v' := by
  cases h with
  | finish hnone =>
    cases h' with
    | finish => rfl
    | opening hsome =>
      rw [hnone] at hsome
      cases hsome
  | opening hsome =>
    cases h' with
    | finish hnone =>
      rw [hsome] at hnone
      cases hnone
    | opening hsome' =>
      rw [hsome] at hsome'
      obtain ⟨rfl, rfl⟩ := Prod.mk.inj (Option.some.inj hsome')
      rfl

theorem Turn.totalWeight_lt {w v : Worklist α} (h : Turn w v) :
    totalWeight v.waiting < totalWeight w.waiting := by
  cases h with
  | @finish done waiting g hnone =>
    have hpos := weightProduct_pos g
    show totalWeight waiting < weightProduct g + totalWeight waiting
    omega
  | @opening done waiting g rest p hsome hp =>
    have hlt : totalWeight (openBeside rest p) < weightProduct g := by
      obtain ⟨kind, -, hextract⟩ := extract?_of_next? hsome
      rw [weightProduct_extract hextract]
      exact totalWeight_openBeside hp rest
    show totalWeight (waiting ++ openBeside rest p) < weightProduct g + totalWeight waiting
    rw [totalWeight_append]
    omega

/-- No run goes on forever, whatever it starts from. -/
theorem wellFounded_turn : WellFounded fun v w : Worklist α => Turn w v :=
  Subrelation.wf Turn.totalWeight_lt (measure fun w : Worklist α => totalWeight w.waiting).wf

/-! ## Runs -/

/-- The turns on the groups of one level: those that are finished are done, in order, and the groups
of the next level stand behind what waited behind the level. -/
theorem run_level (done level behind : List (List (Pattern α))) :
    ReflTransGen Turn ⟨done, level ++ behind⟩
      ⟨done ++ level.filter fun g => (openGroup? g).isNone, behind ++ nextLevel level⟩ := by
  induction level generalizing done behind with
  | nil =>
    rw [List.filter_nil, List.append_nil, nextLevel, List.flatMap_nil, List.append_nil]
    exact .refl
  | cons g level ih =>
    cases hnext : next? g with
    | none =>
      have hopen : openGroup? g = none := Option.map_eq_none_iff.mpr hnext
      have hturn : Turn ⟨done, g :: (level ++ behind)⟩ ⟨done ++ [g], level ++ behind⟩ := .finish hnext
      have hrest := ih (done ++ [g]) behind
      rw [List.append_assoc, List.singleton_append] at hrest
      rw [List.filter_cons_of_pos (by simp [hopen]), nextLevel, List.flatMap_cons, hopen,
        Option.getD_none, List.nil_append]
      exact .head hturn hrest
    | some r =>
      have hopen : openGroup? g = some (openBeside r.2 r.1) := by rw [openGroup?, hnext, Option.map_some]
      have hturn : Turn ⟨done, g :: (level ++ behind)⟩
          ⟨done, level ++ behind ++ openBeside r.2 r.1⟩ := .opening hnext (ne_leaf_of_next? hnext)
      have hrest := ih done (behind ++ openBeside r.2 r.1)
      rw [← List.append_assoc, List.append_assoc behind] at hrest
      rw [List.filter_cons_of_neg (by simp [hopen]), nextLevel, List.flatMap_cons, hopen,
        Option.getD_some]
      exact .head hturn hrest

/-- The whole run: level by level, until no group waits. -/
theorem run_expandLevels (done waiting : List (List (Pattern α))) :
    ReflTransGen Turn ⟨done, waiting⟩ ⟨done ++ expandLevels waiting, []⟩ := by
  fun_induction expandLevels waiting generalizing done with
  | case1 => exact (List.append_nil done).symm ▸ .refl
  | case2 g gs ih =>
    have hlevel := run_level done (g :: gs) []
    rw [List.append_nil, List.nil_append] at hlevel
    rw [← List.append_assoc]
    exact hlevel.trans (ih _)

/-- A run that has come to its end has come to the only end that there is. -/
theorem eq_of_run {w u v : Worklist α} (hu : ReflTransGen Turn w u) (hv : ReflTransGen Turn w v)
    (huend : u.waiting = []) (hvend : v.waiting = []) : u = v := by
  -- no turn leaves a queue in which nothing waits
  have hstop : ∀ {x y : Worklist α}, x.waiting = [] → ReflTransGen Turn x y → x = y := by
    intro x y hx hrun
    rcases hrun.cases_head with heq | ⟨z, hturn, -⟩
    · exact heq
    · cases hturn <;> cases hx
  have hright : Relator.RightUnique (Turn (α := α)) := fun _ _ _ h h' => h.unique h'
  rcases hu.total_of_right_unique hright hv with hrun | hrun
  · exact hstop huend hrun
  · exact (hstop hvend hrun).symm

end Worklist

/-! ## The groups that come out -/

theorem map_leaf_flatAll {group : List (Pattern α)} (h : ∀ p ∈ group, ∃ a, p = leaf a) :
    (flatAll group).map leaf = group := by
  induction group with
  | nil => rfl
  | cons p ps ih =>
    obtain ⟨⟨a, rfl⟩, hps⟩ := List.forall_mem_cons.mp h
    rw [flatAll, flat, List.singleton_append, List.map_cons, ih hps]

/-- A finished group holds leaves only. -/
theorem map_leaf_flatAll_of_mem {waiting : List (List (Pattern α))} {g : List (Pattern α)}
    (h : g ∈ expandLevels waiting) : (flatAll g).map leaf = g := by
  fun_induction expandLevels waiting with
  | case1 => cases h
  | case2 _ _ ih =>
    rcases List.mem_append.mp h with hlevel | hbelow
    · obtain ⟨-, hdone⟩ := List.mem_filter.mp hlevel
      exact map_leaf_flatAll (exists_leaf_of_openGroup?_eq_none (Option.isNone_iff_eq_none.mp hdone))
    · exact ih hbelow

/-- The groups of a pattern, as groups of leaves, are the finished groups themselves. -/
theorem map_leaf_groups (p : Pattern α) : p.groups.map (List.map leaf) = expandLevels [[p]] := by
  rw [groups, List.map_map]
  exact (List.map_congr_left fun g hg => map_leaf_flatAll_of_mem hg).trans (List.map_id _)

/-- **The expansion ends with the ways through the pattern.** No run of the queue goes on forever, and none
gets stuck while a group waits. The run on a pattern can only end with certain groups, of leaves alone;
they are the alternatives of its expansion, and with all order forgotten they are its ways. -/
theorem expansion_run (p : Pattern α) :
    (WellFounded fun v w : Worklist α => Worklist.Turn w v) ∧
    (∀ w : Worklist α, w.waiting ≠ [] → ∃ v, Worklist.Turn w v) ∧
    ∃ groups : List (List α),
      (∀ w, ReflTransGen Worklist.Turn (.start p) w ∧ w.waiting = [] ↔
        w = ⟨groups.map (List.map leaf), []⟩) ∧
      p.expansion = either (groups.map fun g => required (g.map leaf)) ∧
      unordered groups = p.ways := by
  refine ⟨Worklist.wellFounded_turn, fun _ => Worklist.exists_turn, p.groups, ?_, rfl,
    unordered_groups p⟩
  have hrun : ReflTransGen Worklist.Turn (.start p) ⟨p.groups.map (List.map leaf), []⟩ := by
    rw [map_leaf_groups]
    exact Worklist.run_expandLevels [] [[p]]
  intro w
  constructor
  · rintro ⟨hw, hend⟩
    exact Worklist.eq_of_run hw hrun hend rfl
  · rintro rfl
    exact ⟨hrun, rfl⟩

/-- In `(a [b | c])...` the choice stands in brackets in a repetition: the two rounds choose for
themselves, so there are four groups. The groups `a b a c` and `a c a b` are the same way, which is
counted twice. -/
theorem expansion_run_sample :
    let p : Pattern Nat := oneOrMore (required [leaf 0, optional [either [leaf 1, leaf 2]]])
    (Worklist.start p).waiting ≠ [] ∧ (∃ v, Worklist.Turn (.start p) v) ∧
    ∃ groups : List (List Nat),
      ReflTransGen Worklist.Turn (.start p) ⟨groups.map (List.map leaf), []⟩ ∧
      p.expansion = either (groups.map fun g => required (g.map leaf)) ∧
      unordered groups = {{0, 1, 0, 1}, {0, 1, 0, 2}, {0, 2, 0, 1}, {0, 2, 0, 2}} := by
  intro p
  obtain ⟨-, hturn, groups, hend, hexpansion, hways⟩ := p.expansion_run
  have hwaiting : (Worklist.start p).waiting ≠ [] := List.cons_ne_nil _ _
  refine ⟨hwaiting, hturn _ hwaiting, groups, ((hend _).mpr rfl).1, hexpansion, ?_⟩
  rw [hways]
  decide

end Synopsis.Pattern
