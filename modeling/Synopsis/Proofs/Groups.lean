import Mathlib.Data.Multiset.Bind
import Synopsis.Pattern.Expansion
import Synopsis.Proofs.Words

/-!
# What the groups of a pattern count

The expansion opens one pattern of one group at a time, in an order of its own. Forgetting all order,
its result is the disjunctive normal form of the pattern: `ways`, defined along the syntax tree
(`unordered_groups`). The invariant of the loop is that the ways of all groups still waiting, together with
the groups already finished, stay the same.

How often a leaf can be met on one way is then a number read off the tree (`multiplicity`), and the
largest count in a group is that number (`exists_count_eq_multiplicity`). The same number bounds how
often the leaf occurs in a word of the pattern, as long as it is at most one
(`count_le_multiplicity_of_mem_words`): a leaf that no group has twice is in no word twice.
-/

namespace Synopsis.Pattern

variable {α : Type}

/-! ## The ways through a pattern -/

/-- Every union of a group of the one and a group of the other. -/
def unions (s t : Multiset (Multiset α)) : Multiset (Multiset α) := s.bind fun g => t.map (g + ·)

theorem mem_unions {s t : Multiset (Multiset α)} {k : Multiset α} :
    k ∈ unions s t ↔ ∃ g ∈ s, ∃ h ∈ t, g + h = k := by
  simp only [unions, Multiset.mem_bind, Multiset.mem_map]

theorem unions_comm (s t : Multiset (Multiset α)) : unions s t = unions t s := by
  unfold unions
  rw [Multiset.bind_map_comm]
  simp only [add_comm]

theorem unions_assoc (s t u : Multiset (Multiset α)) :
    unions (unions s t) u = unions s (unions t u) := by
  simp only [unions, Multiset.bind_assoc, Multiset.bind_map, Multiset.map_bind, Multiset.map_map,
    Function.comp_def, add_assoc]

@[simp] theorem unions_one (t : Multiset (Multiset α)) : unions {0} t = t := by
  simp [unions]

theorem unions_left_comm (s t u : Multiset (Multiset α)) :
    unions s (unions t u) = unions t (unions s u) := by
  rw [← unions_assoc, unions_comm s t, unions_assoc]

theorem add_unions (s t u : Multiset (Multiset α)) :
    unions (s + t) u = unions s u + unions t u :=
  Multiset.add_bind ..

mutual

/-- **`ways p`**: the groups of leaves that going through `p` can meet, optional parts present and
repeated parts twice. -/
def ways : Pattern α → Multiset (Multiset α)
  | leaf a => {{a}}
  | required ps => waysAll ps
  | optional ps => waysAll ps
  | either ps => waysAny ps
  | oneOrMore p => unions p.ways p.ways

/-- The ways through all of several patterns. -/
def waysAll : List (Pattern α) → Multiset (Multiset α)
  | [] => {0}
  | p :: ps => unions p.ways (waysAll ps)

/-- The ways through any one of several patterns. -/
def waysAny : List (Pattern α) → Multiset (Multiset α)
  | [] => 0
  | p :: ps => p.ways + waysAny ps

end

theorem waysAll_append (ps qs : List (Pattern α)) :
    waysAll (ps ++ qs) = unions (waysAll ps) (waysAll qs) := by
  induction ps with
  | nil => rw [List.nil_append, waysAll, unions_one]
  | cons p ps ih => rw [List.cons_append, waysAll, waysAll, ih, unions_assoc]

theorem mem_waysAny {ps : List (Pattern α)} {k : Multiset α} :
    k ∈ waysAny ps ↔ ∃ p ∈ ps, k ∈ p.ways := by
  induction ps with
  | nil => simp [waysAny]
  | cons p ps ih => simp [waysAny, ih]

/-! ## The expansion finds the ways -/

/-- Taking a pattern out of a group and putting it in front changes no way. -/
theorem waysAll_extract {kind : Pattern α → Bool} {group : List (Pattern α)} {p : Pattern α}
    {rest : List (Pattern α)} (h : extract? kind group = some (p, rest)) :
    waysAll group = unions p.ways (waysAll rest) := by
  induction group generalizing rest with
  | nil => simp [extract?] at h
  | cons q qs ih =>
    unfold extract? at h
    split at h
    · obtain ⟨rfl, rfl⟩ := Prod.mk.inj (Option.some.inj h)
      rfl
    · obtain ⟨r, hr, he⟩ := Option.map_eq_some_iff.mp h
      obtain ⟨rfl, rfl⟩ := Prod.mk.inj he
      rw [waysAll, waysAll, ih hr, unions_left_comm]

/-- The ways through several groups. -/
def waysOf (gs : List (List (Pattern α))) : Multiset (Multiset α) := (gs.map waysAll).sum

@[simp] theorem waysOf_nil : waysOf ([] : List (List (Pattern α))) = 0 := rfl

@[simp] theorem waysOf_cons (g : List (Pattern α)) (gs : List (List (Pattern α))) :
    waysOf (g :: gs) = waysAll g + waysOf gs :=
  List.sum_cons

theorem waysOf_append (gs hs : List (List (Pattern α))) :
    waysOf (gs ++ hs) = waysOf gs + waysOf hs := by
  rw [waysOf, List.map_append, List.sum_append, ← waysOf, ← waysOf]

theorem waysOf_map_cons (ps rest : List (Pattern α)) :
    waysOf (ps.map (· :: rest)) = unions (waysAny ps) (waysAll rest) := by
  induction ps with
  | nil => rfl
  | cons p ps ih => rw [List.map_cons, waysOf_cons, ih, waysAll, waysAny, add_unions]

/-- Opening a pattern beside the rest of its group changes no way. -/
theorem waysOf_openBeside (p : Pattern α) (rest : List (Pattern α)) :
    waysOf (openBeside rest p) = unions p.ways (waysAll rest) := by
  cases p with
  | leaf a => rw [openBeside, waysOf_cons, waysOf_nil, add_zero, waysAll]
  | required ps | optional ps =>
    rw [openBeside, waysOf_cons, waysOf_nil, add_zero, waysAll_append, ways]
  | either ps => rw [openBeside, waysOf_map_cons, ways]
  | oneOrMore p =>
    rw [openBeside, waysOf_cons, waysOf_nil, add_zero, waysAll, waysAll, ways, unions_assoc]

theorem extract?_eq_none {kind : Pattern α → Bool} {group : List (Pattern α)}
    (h : extract? kind group = none) : ∀ p ∈ group, kind p = false := by
  induction group with
  | nil =>
    intro p hp
    cases hp
  | cons q qs ih =>
    unfold extract? at h
    split at h
    · cases h
    · next hq =>
      intro p hp
      rcases List.mem_cons.mp hp with rfl | hp
      · exact Bool.eq_false_iff.mpr hq
      · exact ih (Option.map_eq_none_iff.mp h) p hp

/-- A group that cannot be opened holds leaves only. -/
theorem exists_leaf_of_openGroup?_eq_none {group : List (Pattern α)}
    (h : openGroup? group = none) : ∀ p ∈ group, ∃ a, p = leaf a := by
  intro p hp
  rw [openGroup?, Option.map_eq_none_iff] at h
  simp only [next?, Option.or_eq_none_iff] at h
  obtain ⟨heither, hrequired, hoptional, hmany⟩ := h
  cases p with
  | leaf a => exact ⟨a, rfl⟩
  | required ps => cases extract?_eq_none hrequired _ hp
  | optional ps => cases extract?_eq_none hoptional _ hp
  | either ps => cases extract?_eq_none heither _ hp
  | oneOrMore p => cases extract?_eq_none hmany _ hp

theorem waysAll_of_leaves {group : List (Pattern α)} (h : ∀ p ∈ group, ∃ a, p = leaf a) :
    waysAll group = {Multiset.ofList (flatAll group)} := by
  induction group with
  | nil => rfl
  | cons p ps ih =>
    obtain ⟨a, rfl⟩ := h p List.mem_cons_self
    rw [waysAll, ih fun q hq => h q (List.mem_cons_of_mem _ hq), ways, flatAll, flat]
    rfl

/-- Groups with all order forgotten. -/
def unordered (gs : List (List α)) : Multiset (Multiset α) :=
  Multiset.ofList (gs.map Multiset.ofList)

theorem unordered_append (gs hs : List (List α)) :
    unordered (gs ++ hs) = unordered gs + unordered hs := by
  rw [unordered, List.map_append, ← Multiset.coe_add, ← unordered, ← unordered]

theorem mem_unordered {gs : List (List α)} {k : Multiset α} :
    k ∈ unordered gs ↔ ∃ g ∈ gs, Multiset.ofList g = k := by
  rw [unordered, Multiset.mem_coe, List.mem_map]

/-- One level of the expansion: what is finished on it and what it hands on are its ways. -/
theorem waysOf_level (gs : List (List (Pattern α))) :
    unordered ((gs.filter fun g => (openGroup? g).isNone).map flatAll) + waysOf (nextLevel gs) =
      waysOf gs := by
  induction gs with
  | nil => rfl
  | cons g gs ih =>
    rw [waysOf_cons, ← ih, nextLevel, List.flatMap_cons, waysOf_append, ← nextLevel]
    cases hopen : openGroup? g with
    | none =>
      have hg : waysAll g = unordered [flatAll g] :=
        waysAll_of_leaves (exists_leaf_of_openGroup?_eq_none hopen)
      rw [List.filter_cons_of_pos (by simp [hopen]), List.map_cons, ← List.singleton_append,
        unordered_append, hg, Option.getD_none, waysOf_nil, zero_add, add_assoc]
    | some hs =>
      rw [List.filter_cons_of_neg (by simp [hopen]), Option.getD_some]
      obtain ⟨r, hr, rfl⟩ := Option.map_eq_some_iff.mp hopen
      obtain ⟨kind, _, hextract⟩ := extract?_of_next? hr
      rw [waysOf_openBeside, ← waysAll_extract hextract, add_left_comm]

theorem unordered_expandLevels (gs : List (List (Pattern α))) :
    unordered ((expandLevels gs).map flatAll) = waysOf gs := by
  fun_induction expandLevels gs with
  | case1 => rfl
  | case2 g gs ih =>
    rw [List.map_append, unordered_append, ih]
    exact waysOf_level (g :: gs)

/-- **The expansion is the disjunctive normal form.** With all order forgotten, the groups of a
pattern are its ways. -/
theorem unordered_groups (p : Pattern α) : unordered p.groups = p.ways := by
  rw [groups, unordered_expandLevels, waysOf_cons, waysOf_nil, add_zero, waysAll, waysAll,
    unions_comm, unions_one]

theorem mem_ways_iff {p : Pattern α} {k : Multiset α} :
    k ∈ p.ways ↔ ∃ g ∈ p.groups, Multiset.ofList g = k := by
  rw [← unordered_groups, mem_unordered]

/-! ## How often a leaf is met -/

section Multiplicity

variable [DecidableEq α]

mutual

/-- **`multiplicity a p`**: the most often that `a` is met on one way through `p`. -/
def multiplicity (a : α) : Pattern α → Nat
  | leaf b => if b = a then 1 else 0
  | required ps => multiplicitySum a ps
  | optional ps => multiplicitySum a ps
  | either ps => multiplicityMax a ps
  | oneOrMore p => 2 * p.multiplicity a

/-- The multiplicities in several patterns, added up. -/
def multiplicitySum (a : α) : List (Pattern α) → Nat
  | [] => 0
  | p :: ps => p.multiplicity a + multiplicitySum a ps

/-- The largest multiplicity in several patterns. -/
def multiplicityMax (a : α) : List (Pattern α) → Nat
  | [] => 0
  | p :: ps => max (p.multiplicity a) (multiplicityMax a ps)

end

theorem multiplicity_le_max (a : α) {p : Pattern α} {ps : List (Pattern α)} (hp : p ∈ ps) :
    p.multiplicity a ≤ multiplicityMax a ps := by
  induction ps with
  | nil => cases hp
  | cons q qs ih =>
    rw [multiplicityMax, le_max_iff]
    rcases List.mem_cons.mp hp with rfl | hp
    · exact Or.inl (le_refl _)
    · exact Or.inr (ih hp)

/-- The largest of several multiplicities is one of them. -/
theorem exists_multiplicity_eq_max (a : α) {ps : List (Pattern α)} (hne : ps ≠ []) :
    ∃ p ∈ ps, p.multiplicity a = multiplicityMax a ps := by
  induction ps with
  | nil => exact absurd rfl hne
  | cons q qs ih =>
    rw [multiplicityMax]
    by_cases hle : multiplicityMax a qs ≤ q.multiplicity a
    · exact ⟨q, List.mem_cons_self, (max_eq_left hle).symm⟩
    · -- the first does not attain the maximum, so there is another that does
      have hqs : qs ≠ [] := by
        rintro rfl
        exact hle (Nat.zero_le _)
      obtain ⟨p, hp, hmax⟩ := ih hqs
      refine ⟨p, List.mem_cons_of_mem q hp, ?_⟩
      rw [hmax, max_eq_right (Nat.le_of_not_le hle)]

/-- Along a sequence the bounds on the counts add up. -/
theorem count_le_of_mem_waysAll (a : α) {ps : List (Pattern α)}
    (h : ∀ p ∈ ps, ∀ g ∈ p.ways, g.count a ≤ p.multiplicity a) :
    ∀ g ∈ waysAll ps, g.count a ≤ multiplicitySum a ps := by
  induction ps with
  | nil =>
    intro g hg
    rw [waysAll, Multiset.mem_singleton] at hg
    simp [hg]
  | cons p ps ih =>
    intro k hk
    obtain ⟨g, hg, g', hg', rfl⟩ := mem_unions.mp hk
    have hp := h p List.mem_cons_self g hg
    have hps := ih (fun q hq => h q (List.mem_cons_of_mem p hq)) g' hg'
    rw [Multiset.count_add, multiplicitySum]
    omega

/-- No way meets a leaf more often than its multiplicity. -/
theorem count_le_multiplicity (a : α) (p : Pattern α) :
    ∀ g ∈ p.ways, g.count a ≤ p.multiplicity a := by
  induction p using Pattern.ind with
  | leaf b =>
    intro g hg
    rw [ways, Multiset.mem_singleton] at hg
    rw [hg, multiplicity, Multiset.count_singleton]
    simp only [eq_comm, le_refl]
  | required ps ih => exact count_le_of_mem_waysAll a ih
  | optional ps ih => exact count_le_of_mem_waysAll a ih
  | either ps ih =>
    intro g hg
    obtain ⟨p, hp, hg⟩ := mem_waysAny.mp hg
    calc g.count a ≤ p.multiplicity a := ih p hp g hg
      _ ≤ multiplicityMax a ps := multiplicity_le_max a hp
  | oneOrMore p ih =>
    intro k hk
    obtain ⟨g, hg, h, hh, rfl⟩ := mem_unions.mp hk
    have hg' := ih g hg
    have hh' := ih h hh
    rw [Multiset.count_add, multiplicity]
    omega

mutual

/-- Every choice in the pattern offers an alternative. -/
def Passable : Pattern α → Prop
  | leaf _ => True
  | required ps => PassableAll ps
  | optional ps => PassableAll ps
  | either ps => ps ≠ [] ∧ PassableAll ps
  | oneOrMore p => p.Passable

/-- Every choice in each of the patterns offers an alternative. -/
def PassableAll : List (Pattern α) → Prop
  | [] => True
  | p :: ps => p.Passable ∧ PassableAll ps

end

omit [DecidableEq α] in
theorem passableAll_iff {ps : List (Pattern α)} : PassableAll ps ↔ ∀ p ∈ ps, p.Passable := by
  induction ps with
  | nil => simp [PassableAll]
  | cons p ps ih => simp [PassableAll, ih]

/-- Along a sequence the counts that are attained add up. -/
theorem exists_count_eq_multiplicitySum (a : α) {ps : List (Pattern α)}
    (h : ∀ p ∈ ps, ∃ g ∈ p.ways, g.count a = p.multiplicity a) :
    ∃ g ∈ waysAll ps, g.count a = multiplicitySum a ps := by
  induction ps with
  | nil => exact ⟨0, Multiset.mem_singleton_self 0, Multiset.count_zero a⟩
  | cons p ps ih =>
    obtain ⟨g, hg, hgcount⟩ := h p List.mem_cons_self
    obtain ⟨g', hg', hgcount'⟩ := ih fun q hq => h q (List.mem_cons_of_mem p hq)
    refine ⟨g + g', mem_unions.mpr ⟨g, hg, g', hg', rfl⟩, ?_⟩
    rw [Multiset.count_add, hgcount, hgcount', multiplicitySum]

/-- Some way meets a leaf as often as its multiplicity says, unless a choice has no alternative and
there is no way at all. -/
theorem exists_count_eq_multiplicity (a : α) {p : Pattern α} (hp : p.Passable) :
    ∃ g ∈ p.ways, g.count a = p.multiplicity a := by
  induction p using Pattern.ind with
  | leaf b =>
    refine ⟨{b}, Multiset.mem_singleton_self _, ?_⟩
    rw [multiplicity, Multiset.count_singleton]
    simp only [eq_comm]
  | required ps ih | optional ps ih =>
    apply exists_count_eq_multiplicitySum
    intro p hmem
    exact ih p hmem (passableAll_iff.mp hp p hmem)
  | either ps ih =>
    obtain ⟨hne, hps⟩ := hp
    obtain ⟨p, hmem, hmax⟩ := exists_multiplicity_eq_max a hne
    obtain ⟨g, hg, hcount⟩ := ih p hmem (passableAll_iff.mp hps p hmem)
    exact ⟨g, mem_waysAny.mpr ⟨p, hmem, hg⟩, hcount.trans hmax⟩
  | oneOrMore p ih =>
    obtain ⟨g, hg, hgcount⟩ := ih hp
    refine ⟨g + g, mem_unions.mpr ⟨g, hg, g, hg, rfl⟩, ?_⟩
    rw [Multiset.count_add, hgcount, multiplicity, Nat.two_mul]

/-- A group has a leaf more than `n` times exactly if its multiplicity is more than `n`. -/
theorem exists_group_count_iff (a : α) {p : Pattern α} (hp : p.Passable) (n : Nat) :
    (∃ g ∈ p.groups, n < g.count a) ↔ n < p.multiplicity a := by
  constructor
  · rintro ⟨g, hg, hcount⟩
    have hle := count_le_multiplicity a p (Multiset.ofList g) (mem_ways_iff.mpr ⟨g, hg, rfl⟩)
    rw [Multiset.coe_count] at hle
    exact Nat.lt_of_lt_of_le hcount hle
  · intro hlt
    obtain ⟨k, hk, hcount⟩ := exists_count_eq_multiplicity a hp
    obtain ⟨g, hg, rfl⟩ := mem_ways_iff.mp hk
    rw [Multiset.coe_count] at hcount
    exact ⟨g, hg, by rw [hcount]; exact hlt⟩

/-! ## Words and multiplicity -/

/-- Counts add up along a concatenation, whatever language each pattern stands for. -/
theorem count_le_of_mem_prod (a : α) {L : Pattern α → Language α} {ps : List (Pattern α)}
    (h : ∀ p ∈ ps, p.multiplicity a ≤ 1 → ∀ w ∈ L p, w.count a ≤ p.multiplicity a)
    (hone : multiplicitySum a ps ≤ 1) :
    ∀ w ∈ (ps.map L).prod, w.count a ≤ multiplicitySum a ps := by
  induction ps with
  | nil =>
    intro w hw
    rw [List.map_nil, List.prod_nil, Language.mem_one] at hw
    simp [hw]
  | cons p ps ih =>
    intro w hw
    rw [List.map_cons, List.prod_cons, Language.mem_mul] at hw
    obtain ⟨u, hu, v, hv, rfl⟩ := hw
    rw [multiplicitySum] at hone ⊢
    have hcu := h p List.mem_cons_self (by omega) u hu
    have hcv := ih (fun q hq => h q (List.mem_cons_of_mem p hq)) (by omega) v hv
    rw [List.count_append]
    omega

/-- A leaf of multiplicity at most one is in no word more often than its multiplicity: it stands
under no repetition, and of the alternatives of a choice a word takes one. -/
theorem count_le_multiplicity_of_mem_words (a : α) {p : Pattern α} (hone : p.multiplicity a ≤ 1) :
    ∀ w ∈ p.words, w.count a ≤ p.multiplicity a := by
  induction p using Pattern.ind with
  | leaf b =>
    intro w hw
    obtain rfl : w = [b] := hw
    rw [multiplicity, List.count_singleton]
    simp only [beq_iff_eq, le_refl]
  | required ps ih =>
    simp only [words, multiplicity, wordsEach_eq_map] at hone ⊢
    exact count_le_of_mem_prod a ih hone
  | optional ps ih =>
    simp only [words, multiplicity, wordsEach_eq_map, List.map_map] at hone ⊢
    refine count_le_of_mem_prod a ?_ hone
    intro p hp hle w hw
    rcases hw with hw | hw
    · obtain rfl : w = [] := hw
      exact Nat.zero_le _
    · exact ih p hp hle w hw
  | either ps ih =>
    intro w hw
    rw [words, wordsEach_eq_map] at hw
    obtain ⟨L, hL, hw⟩ := exists_mem_of_mem_sum hw
    obtain ⟨p, hp, rfl⟩ := List.mem_map.mp hL
    have hle : p.multiplicity a ≤ multiplicityMax a ps := multiplicity_le_max a hp
    calc w.count a ≤ p.multiplicity a := ih p hp (hle.trans hone) w hw
      _ ≤ multiplicityMax a ps := hle
  | oneOrMore p ih =>
    intro w hw
    rw [multiplicity] at hone ⊢
    have hzero : p.multiplicity a = 0 := by omega
    -- no round has the leaf, so no number of rounds has it
    have hround : ∀ v ∈ p.words, v.count a = 0 := by
      intro v hv
      have hle := ih (by omega) v hv
      omega
    obtain ⟨u, hu, v, hv, rfl⟩ := Language.mem_mul.mp hw
    obtain ⟨rounds, rfl, hrounds⟩ := Language.mem_kstar.mp hv
    have hflat : rounds.flatten.count a = 0 := by
      rw [List.count_flatten, List.sum_eq_zero]
      intro n hn
      obtain ⟨r, hr, rfl⟩ := List.mem_map.mp hn
      exact hround r (hrounds r hr)
    rw [List.count_append, hround u hu, hflat]
    exact Nat.zero_le _

end Multiplicity

end Synopsis.Pattern
