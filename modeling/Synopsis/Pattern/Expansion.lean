import Synopsis.Pattern.Basic

/-!
# Expansion into groups of leaves

The expansion of a pattern lists the ways to go through it: a list of groups, each a list of leaves.
A choice makes one group for each alternative, an optional part counts as present, and a repeated
part stands twice, so that what can be met more than once is met twice in some group.

The expansion works on groups of patterns and opens one pattern of a group at a time: the first
choice, if there is none the first sequence, then the first optional part, then the first
repetition. Groups are opened level by level, and a group of leaves is finished on the level on
which it appears; this fixes the order of the result. It ends because each opening makes the
groups lighter, for a weight that multiplies along a group and adds over the groups.
-/

namespace Synopsis.Pattern

variable {α : Type}

/-! ## Opening one pattern of a group -/

/-- The first pattern of the given kind, and the group without it. -/
def extract? (kind : Pattern α → Bool) :
    List (Pattern α) → Option (Pattern α × List (Pattern α))
  | [] => none
  | p :: ps =>
    if kind p then some (p, ps) else (extract? kind ps).map fun r => (r.1, p :: r.2)

/-- The pattern is a choice. -/
def isEither : Pattern α → Bool
  | either _ => true
  | _ => false

/-- The pattern is a sequence. -/
def isRequired : Pattern α → Bool
  | required _ => true
  | _ => false

/-- The pattern is an optional part. -/
def isOptional : Pattern α → Bool
  | optional _ => true
  | _ => false

/-- The pattern is a repetition. -/
def isOneOrMore : Pattern α → Bool
  | oneOrMore _ => true
  | _ => false

/-- The pattern of a group to be opened next, and the group without it. -/
def next? (group : List (Pattern α)) : Option (Pattern α × List (Pattern α)) :=
  (extract? isEither group).or <| (extract? isRequired group).or <|
    (extract? isOptional group).or (extract? isOneOrMore group)

/-- The groups that a pattern and the rest of its group give when the pattern is opened. -/
def openBeside (rest : List (Pattern α)) : Pattern α → List (List (Pattern α))
  | leaf a => [leaf a :: rest]
  | required ps => [ps ++ rest]
  | optional ps => [ps ++ rest]
  | either ps => ps.map (· :: rest)
  | oneOrMore p => [p :: p :: rest]

/-- The groups that one step makes of a group; none of a group that holds only leaves. -/
def openGroup? (group : List (Pattern α)) : Option (List (List (Pattern α))) :=
  (next? group).map fun r => openBeside r.2 r.1

/-! ## Weights -/

mutual

/-- The weight of a pattern: one more than all the groups weigh that it opens into. -/
def weight : Pattern α → Nat
  | leaf _ => 1
  | required ps => 1 + weightProduct ps
  | optional ps => 1 + weightProduct ps
  | either ps => 1 + weightSum ps
  | oneOrMore p => 1 + p.weight * p.weight

/-- The weight of a group: the product of the weights in it. -/
def weightProduct : List (Pattern α) → Nat
  | [] => 1
  | p :: ps => p.weight * weightProduct ps

/-- The weight of alternatives: the sum of their weights. -/
def weightSum : List (Pattern α) → Nat
  | [] => 0
  | p :: ps => p.weight + weightSum ps

end

/-- The weight of several groups: the sum of their weights. -/
def totalWeight : List (List (Pattern α)) → Nat
  | [] => 0
  | g :: gs => weightProduct g + totalWeight gs

theorem totalWeight_append (gs hs : List (List (Pattern α))) :
    totalWeight (gs ++ hs) = totalWeight gs + totalWeight hs := by
  induction gs with
  | nil => simp [totalWeight]
  | cons g gs ih => simp [totalWeight, ih, Nat.add_assoc]

theorem weight_pos (p : Pattern α) : 0 < p.weight := by
  cases p <;> simp only [weight] <;> omega

theorem weightProduct_pos (ps : List (Pattern α)) : 0 < weightProduct ps := by
  induction ps with
  | nil => simp [weightProduct]
  | cons p ps ih => simpa [weightProduct] using Nat.mul_pos p.weight_pos ih

theorem weightProduct_append (ps qs : List (Pattern α)) :
    weightProduct (ps ++ qs) = weightProduct ps * weightProduct qs := by
  induction ps with
  | nil => simp [weightProduct]
  | cons p ps ih => simp [weightProduct, ih, Nat.mul_assoc]

theorem totalWeight_map_cons (ps rest : List (Pattern α)) :
    totalWeight (ps.map (· :: rest)) = weightSum ps * weightProduct rest := by
  induction ps with
  | nil => simp [totalWeight, weightSum]
  | cons p ps ih =>
    rw [List.map_cons, totalWeight, ih, weightSum, weightProduct, Nat.add_mul]

theorem extract?_kind {kind : Pattern α → Bool} {group : List (Pattern α)} {p : Pattern α}
    {rest : List (Pattern α)} (h : extract? kind group = some (p, rest)) : kind p = true := by
  induction group generalizing rest with
  | nil => simp [extract?] at h
  | cons q qs ih =>
    by_cases hq : kind q = true
    · simp only [extract?, hq, if_true, Option.some.injEq, Prod.mk.injEq] at h
      exact h.1 ▸ hq
    · simp only [extract?, hq, Bool.false_eq_true, if_false] at h
      obtain ⟨r, hr, he⟩ := Option.map_eq_some_iff.mp h
      simp only [Prod.mk.injEq] at he
      have hp : extract? kind qs = some (p, r.2) := by rw [hr, ← he.1]
      exact ih hp

theorem weightProduct_extract {kind : Pattern α → Bool} {group : List (Pattern α)}
    {p : Pattern α} {rest : List (Pattern α)} (h : extract? kind group = some (p, rest)) :
    weightProduct group = p.weight * weightProduct rest := by
  induction group generalizing rest with
  | nil => simp [extract?] at h
  | cons q qs ih =>
    by_cases hq : kind q = true
    · simp only [extract?, hq, if_true, Option.some.injEq, Prod.mk.injEq] at h
      obtain ⟨rfl, rfl⟩ := h
      rfl
    · simp only [extract?, hq, Bool.false_eq_true, if_false] at h
      obtain ⟨r, hr, he⟩ := Option.map_eq_some_iff.mp h
      simp only [Prod.mk.injEq] at he
      obtain ⟨rfl, rfl⟩ := he
      simp only [weightProduct, ih hr]
      exact Nat.mul_left_comm ..

/-- What is opened next is one of the four kinds of groups. -/
theorem extract?_of_next? {group : List (Pattern α)} {r : Pattern α × List (Pattern α)}
    (h : next? group = some r) :
    ∃ kind ∈ [isEither, isRequired, isOptional, isOneOrMore], extract? kind group = some r := by
  simp only [next?, Option.or_eq_some_iff] at h
  rcases h with h | ⟨_, h | ⟨_, h | ⟨_, h⟩⟩⟩
  · exact ⟨isEither, by simp, h⟩
  · exact ⟨isRequired, by simp, h⟩
  · exact ⟨isOptional, by simp, h⟩
  · exact ⟨isOneOrMore, by simp, h⟩

/-- Opening a pattern that is no leaf makes its group lighter. -/
theorem totalWeight_openBeside {p : Pattern α} (h : ∀ a, p ≠ leaf a) (rest : List (Pattern α)) :
    totalWeight (openBeside rest p) < p.weight * weightProduct rest := by
  have hr := weightProduct_pos rest
  cases p with
  | leaf a => exact absurd rfl (h a)
  | required ps | optional ps =>
    simp only [openBeside, totalWeight, weight, weightProduct_append, Nat.add_mul]
    omega
  | either ps =>
    simp only [openBeside, totalWeight_map_cons, weight, Nat.add_mul]
    omega
  | oneOrMore p =>
    simp only [openBeside, totalWeight, weight, weightProduct, Nat.add_mul, Nat.mul_assoc]
    omega

/-- What a step makes of a group weighs less than the group, also if it makes nothing. -/
theorem totalWeight_openGroup? (group : List (Pattern α)) :
    totalWeight ((openGroup? group).getD []) < weightProduct group := by
  cases hn : next? group with
  | none => simpa [openGroup?, hn, totalWeight] using weightProduct_pos group
  | some r =>
    obtain ⟨kind, hk, he⟩ := extract?_of_next? hn
    rw [openGroup?, hn, weightProduct_extract he]
    refine totalWeight_openBeside ?_ r.2
    intro a ha
    have hkind := extract?_kind he
    rw [ha] at hkind
    simp only [List.mem_cons, List.not_mem_nil, or_false] at hk
    rcases hk with rfl | rfl | rfl | rfl <;> exact Bool.false_ne_true hkind

/-! ## Level by level -/

/-- The groups of the next level. -/
def nextLevel (groups : List (List (Pattern α))) : List (List (Pattern α)) :=
  groups.flatMap fun g => (openGroup? g).getD []

theorem totalWeight_nextLevel_le (groups : List (List (Pattern α))) :
    totalWeight (nextLevel groups) ≤ totalWeight groups := by
  induction groups with
  | nil => exact Nat.le_refl _
  | cons g gs ih =>
    have hg := totalWeight_openGroup? g
    simp only [nextLevel, List.flatMap_cons, totalWeight_append, totalWeight] at ih ⊢
    omega

theorem totalWeight_nextLevel_lt (g : List (Pattern α)) (gs : List (List (Pattern α))) :
    totalWeight (nextLevel (g :: gs)) < totalWeight (g :: gs) := by
  have hg := totalWeight_openGroup? g
  have hgs := totalWeight_nextLevel_le gs
  simp only [nextLevel, List.flatMap_cons, totalWeight_append, totalWeight] at hgs ⊢
  omega

/-- The finished groups of a level and of all levels below it. -/
def expandLevels : List (List (Pattern α)) → List (List (Pattern α))
  | [] => []
  | g :: gs =>
    ((g :: gs).filter fun h => (openGroup? h).isNone) ++ expandLevels (nextLevel (g :: gs))
termination_by groups => totalWeight groups
decreasing_by exact totalWeight_nextLevel_lt g gs

/-- The ways to go through a pattern, each as the list of leaves met. -/
def groups (p : Pattern α) : List (List α) := (expandLevels [[p]]).map flatAll

/-- The expansion as a pattern: a choice of sequences of leaves. -/
def expansion (p : Pattern α) : Pattern α := either (p.groups.map fun g => required (g.map leaf))

end Synopsis.Pattern
