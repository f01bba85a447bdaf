import Synopsis.Matching.Pattern
import Synopsis.Proofs.Normal

/-!
# One slot for each leaf

Sharing slots gives equal leaves one number and numbers the leaves in the order in which the pattern
meets them. `Tree.SharedAs` says what that is without saying how it is done: every place keeps its leaf,
so that no part of the pattern can match otherwise than before; the slots are the leaves met, each once;
two places have the same number exactly if they have the same leaf. There is one such tree, and
`Tree.intern` is it (`Tree.sharedAs_intern`).

It can be built in one pass over the places from left to right, with a table from old numbers to new ones
by which the pattern is relinked afterwards (`Tree.relinked`). What one step of the pass keeps is that the
slots are the leaves read so far without repeats, and that the table sends every number read so far to
the slot of its leaf (`Sharing.Covers.place`); a slot once made is never moved.
-/

namespace Synopsis

/-! ## Lists without repeats -/

section EraseDups

variable {α β : Type} [DecidableEq α] [DecidableEq β]

theorem eraseDups_concat (l : List α) (a : α) :
    (l ++ [a]).eraseDups = if a ∈ l then l.eraseDups else l.eraseDups ++ [a] := by
  rw [List.eraseDups_append]
  by_cases ha : a ∈ l <;> simp [List.removeAll, ha, List.eraseDups_cons]

/-- A renaming that keeps different elements apart may be done before repeats are dropped or after. -/
theorem eraseDups_map {f : α → β} {l : List α} (h : ∀ a ∈ l, ∀ b ∈ l, f a = f b → a = b) :
    (l.map f).eraseDups = l.eraseDups.map f := by
  induction l using List.reverseRecOn with
  | nil => rfl
  | append_singleton l a ih =>
    have hrest := ih fun b hb c hc => h b (List.mem_append_left _ hb) c (List.mem_append_left _ hc)
    have hmem : f a ∈ l.map f ↔ a ∈ l := by
      constructor
      · intro hfa
        obtain ⟨b, hb, hba⟩ := List.mem_map.mp hfa
        rw [← h b (List.mem_append_left _ hb) a List.mem_concat_self hba]
        exact hb
      · exact List.mem_map_of_mem
    rw [List.map_append, List.map_singleton, eraseDups_concat, eraseDups_concat, hrest]
    by_cases ha : a ∈ l
    · rw [if_pos ha, if_pos (hmem.mpr ha)]
    · rw [if_neg ha, if_neg (mt hmem.mp ha), List.map_append, List.map_singleton]

theorem map_idxOf_self {l : List α} (h : l.Nodup) : l.map l.idxOf = List.range l.length := by
  refine List.ext_getElem (by simp) ?_
  intro i hi _
  rw [List.length_map] at hi
  rw [List.getElem_map, List.getElem_range, h.idxOf_getElem i hi]

end EraseDups

/-! ## Parts of a renamed pattern -/

namespace Pattern

variable {α β : Type}

theorem map_id (p : Pattern α) : p.map id = p := by
  induction p using Pattern.ind with
  | leaf a => rfl
  | required ps ih | optional ps ih | either ps ih =>
    simp only [map, mapAll_eq_map]
    exact congrArg _ ((List.map_congr_left ih).trans (List.map_id ps))
  | oneOrMore p ih => exact congrArg oneOrMore ih

theorem children_map (f : α → β) (p : Pattern α) : (p.map f).children = p.children.map (map f) := by
  cases p with
  | leaf a => rfl
  | required ps | optional ps | either ps => exact mapAll_eq_map f ps
  | oneOrMore p => rfl

/-- Renaming leaves keeps every part in its place. -/
theorem descend?_map (f : α → β) (p : Pattern α) (path : List Nat) :
    (p.map f).descend? path = (p.descend? path).map (map f) := by
  induction path generalizing p with
  | nil => rfl
  | cons i path ih =>
    rw [descend?, descend?, children_map, List.getElem?_map]
    cases p.children[i]? with
    | none => rfl
    | some child => exact ih child

end Pattern

namespace Tree

/-! ## What sharing is -/

/-- **`t.SharedAs u`**: `u` is `t` with one slot for each leaf. -/
structure SharedAs (t u : Tree) : Prop where
  /-- The patterns have the same places, and in each of them stand the same leaves. -/
  places : ∀ path, (u.root.descend? path).map u.resolve = (t.root.descend? path).map t.resolve
  /-- The slots are the leaves of `t`, repeats dropped, in the order in which they are met. -/
  slots : u.slots = t.leaves.eraseDups
  /-- No two slots are equal. -/
  nodup : u.slots.Nodup
  /-- The numbers in the pattern are those of the slots; none is out of range and none unused. -/
  numbers : ∀ i, i ∈ u.root.flat ↔ i < u.slots.length
  /-- The numbers are met for the first time in their own order. -/
  order : u.root.flat.eraseDups = List.range u.slots.length
  /-- Two places have the same number exactly if they have the same leaf. -/
  sameNumber : ∀ j k : Nat, u.root.flat[j]? = u.root.flat[k]? ↔ t.leaves[j]? = t.leaves[k]?
  /-- What stands in the same place matches alike. -/
  outcome : ∀ path p q, t.root.descend? path = some p → u.root.descend? path = some q →
    ∀ left collected, u.matchNode q left collected = t.matchNode p left collected

variable {t u : Tree}

theorem root_intern (t : Tree) : t.intern.root = t.pattern.map t.leaves.eraseDups.idxOf := by
  rw [pattern, resolve, Pattern.map_map]
  rfl

theorem flat_root_intern (t : Tree) :
    t.intern.root.flat = t.leaves.map t.leaves.eraseDups.idxOf := by
  rw [root_intern, Pattern.flat_map, flat_pattern]

/-- Leaves of the tree with the same number are the same. -/
theorem idxOf_leaf_inj {l m : Leaf} (hl : l ∈ t.leaves)
    (h : t.leaves.eraseDups.idxOf l = t.leaves.eraseDups.idxOf m) : l = m :=
  (List.idxOf_inj (List.mem_eraseDups.mpr hl)).mp h

theorem map_resolve_descend? (t : Tree) (path : List Nat) :
    (t.root.descend? path).map t.resolve = t.pattern.descend? path :=
  (Pattern.descend?_map ..).symm

theorem eraseDups_flat_intern (t : Tree) :
    t.intern.root.flat.eraseDups = List.range t.intern.slots.length := by
  rw [flat_root_intern, eraseDups_map fun l hl m _ h => idxOf_leaf_inj hl h,
    map_idxOf_self (nodup_eraseDups t.leaves)]
  rfl

theorem getElem?_flat_intern_eq_iff (t : Tree) (j k : Nat) :
    t.intern.root.flat[j]? = t.intern.root.flat[k]? ↔ t.leaves[j]? = t.leaves[k]? := by
  rw [flat_root_intern, List.getElem?_map, List.getElem?_map]
  constructor
  · intro h
    cases hj : t.leaves[j]? with
    | none =>
      rw [hj] at h
      exact (Option.map_eq_none_iff.mp h.symm).symm
    | some l =>
      rw [hj] at h
      obtain ⟨m, hk, hm⟩ := Option.map_eq_some_iff.mp h.symm
      rw [hk, idxOf_leaf_inj (List.mem_of_getElem? hj) hm.symm]
  · exact congrArg _

theorem SharedAs.eq_intern (h : t.SharedAs u) : u = t.intern := by
  have hpattern : u.pattern = t.pattern := Option.some.inj (h.places [])
  -- a number is the position of the leaf in its slot
  have hnumber : ∀ i ∈ u.root.flat, u.slots.idxOf (u.leafAt i) = id i := by
    intro i hi
    have hlt := (h.numbers i).mp hi
    rw [leafAt_eq_getElem hlt, h.nodup.idxOf_getElem i hlt, id]
  have hroot : u.root = t.intern.root := by
    calc u.root = u.root.map id := (Pattern.map_id _).symm
      _ = u.root.map (u.slots.idxOf ∘ u.leafAt) := (Pattern.map_congr hnumber).symm
      _ = u.pattern.map u.slots.idxOf := (Pattern.map_map ..).symm
      _ = t.intern.root := by rw [hpattern, h.slots, root_intern]
  calc u = ⟨u.slots, u.root⟩ := rfl
    _ = ⟨t.intern.slots, t.intern.root⟩ := by rw [h.slots, hroot]; rfl

theorem SharedAs.of_intern (t : Tree) : t.SharedAs t.intern := by
  have hplaces : ∀ path, (t.intern.root.descend? path).map t.intern.resolve =
      (t.root.descend? path).map t.resolve := by
    intro path
    rw [map_resolve_descend?, map_resolve_descend?, pattern_intern]
  constructor
  case places => exact hplaces
  case slots => rfl
  case nodup => exact nodup_eraseDups t.leaves
  case numbers =>
    intro i
    rw [← List.mem_eraseDups, eraseDups_flat_intern, List.mem_range]
  case order => exact t.eraseDups_flat_intern
  case sameNumber => exact t.getElem?_flat_intern_eq_iff
  case outcome =>
    intro path p q hp hq left collected
    have hresolve := hplaces path
    rw [hp, hq] at hresolve
    rw [matchNode, matchNode, Option.some.inj hresolve]

end Tree

/-! ## Sharing in one pass -/

/-- What the pass over the places has made so far. -/
structure Sharing where
  /-- The slots, each leaf once. -/
  slots : List Leaf
  /-- The new number for each old one that was read, the latest entry first. -/
  table : List (Nat × Nat)

namespace Sharing

/-- Read the number of a place with the given leaf: a leaf that has a slot keeps it, another one gets the
next slot. -/
def place (s : Sharing) (i : Nat) (l : Leaf) : Sharing :=
  if l ∈ s.slots then ⟨s.slots, (i, s.slots.idxOf l) :: s.table⟩
  else ⟨s.slots ++ [l], (i, s.slots.length) :: s.table⟩

/-- The number that the table has for an old one; a number that is not in the table stays as it is. -/
def relink (s : Sharing) (i : Nat) : Nat := (s.table.lookup i).getD i

/-- **`s.Covers t is`**: the slots are the leaves of the numbers `is`, repeats dropped, and the table sends
each of these numbers to the slot of its leaf. -/
structure Covers (s : Sharing) (t : Tree) (is : List Nat) : Prop where
  slots : s.slots = (is.map t.leafAt).eraseDups
  table : ∀ i ∈ is, s.table.lookup i = some (s.slots.idxOf (t.leafAt i))

variable {s : Sharing} {t : Tree} {is : List Nat}

theorem Covers.mem_slots (h : s.Covers t is) {l : Leaf} : l ∈ s.slots ↔ l ∈ is.map t.leafAt := by
  rw [h.slots, List.mem_eraseDups]

/-- An entry for the number just read goes before the entries made earlier. -/
theorem lookup_cons_eq_some {table : List (Nat × Nat)} {i k : Nat} {f : Nat → Nat} (hi : k = f i)
    (hrest : ∀ j ∈ is, table.lookup j = some (f j)) :
    ∀ j ∈ is ++ [i], ((i, k) :: table).lookup j = some (f j) := by
  intro j hj
  by_cases hji : j = i
  · rw [hji, List.lookup_cons_self, hi]
  · rcases List.mem_append.mp hj with hj | hj
    · rw [List.lookup_cons, beq_false_of_ne hji, hrest j hj]
    · exact absurd (List.mem_singleton.mp hj) hji

/-- **The step.** Reading one more number keeps what has been made: no slot is moved. -/
theorem Covers.place (h : s.Covers t is) (i : Nat) :
    (s.place i (t.leafAt i)).Covers t (is ++ [i]) := by
  have hconcat : ((is ++ [i]).map t.leafAt).eraseDups =
      if t.leafAt i ∈ s.slots then s.slots else s.slots ++ [t.leafAt i] := by
    rw [List.map_append, List.map_singleton, eraseDups_concat, ← h.slots]
    simp only [h.mem_slots]
  by_cases hl : t.leafAt i ∈ s.slots
  · rw [if_pos hl] at hconcat
    rw [Sharing.place, if_pos hl]
    exact ⟨hconcat.symm, lookup_cons_eq_some rfl h.table⟩
  · rw [if_neg hl] at hconcat
    rw [Sharing.place, if_neg hl]
    refine ⟨hconcat.symm, lookup_cons_eq_some ?_ ?_⟩
    · rw [List.idxOf_append, if_neg hl, List.idxOf_cons_self, Nat.zero_add]
    · intro j hj
      have hmem : t.leafAt j ∈ s.slots := h.mem_slots.mpr (List.mem_map_of_mem hj)
      rw [h.table j hj, List.idxOf_append, if_pos hmem]

/-- **The run.** -/
theorem Covers.foldl (h : s.Covers t is) (js : List Nat) :
    (js.foldl (fun s i => s.place i (t.leafAt i)) s).Covers t (is ++ js) := by
  induction js generalizing s is with
  | nil => rwa [List.append_nil]
  | cons i js ih =>
    rw [List.foldl_cons, ← List.singleton_append, ← List.append_assoc]
    exact ih (h.place i)

end Sharing

namespace Tree

/-- What the pass over all places of the tree ends with. -/
def sharing (t : Tree) : Sharing := t.root.flat.foldl (fun s i => s.place i (t.leafAt i)) ⟨[], []⟩

/-- The tree with the slots that the pass has made, relinked by its table. -/
def relinked (t : Tree) : Tree := ⟨t.sharing.slots, t.root.map t.sharing.relink⟩

theorem covers_sharing (t : Tree) : t.sharing.Covers t t.root.flat := by
  have hnone : Sharing.Covers ⟨[], []⟩ t [] := ⟨rfl, fun _ hi => absurd hi List.not_mem_nil⟩
  exact hnone.foldl t.root.flat

/-- The pass ends with the shared slots, and its table misses no place. -/
theorem relinked_eq_intern (t : Tree) : t.relinked = t.intern := by
  have hcovers := t.covers_sharing
  have hslots : t.sharing.slots = t.leaves.eraseDups := hcovers.slots
  have hrelink : ∀ i ∈ t.root.flat, t.sharing.relink i = t.leaves.eraseDups.idxOf (t.leafAt i) := by
    intro i hi
    rw [Sharing.relink, hcovers.table i hi, Option.getD_some, hslots]
  rw [relinked, hslots, Pattern.map_congr hrelink]
  rfl

/-- **Sharing is faithful and canonical.** In any tree, whatever slots are shared, repeated or unused in
it, sharing leaves every leaf in its place, so that each part matches as before; its slots are the leaves
met, each once, in the order in which they are met first; and two places have one number exactly if they
have one leaf. No other tree is like that. The pass that builds slots and table together and relinks the
pattern by the table arrives there. -/
theorem sharedAs_intern (t : Tree) :
    t.SharedAs t.intern ∧ (∀ u, t.SharedAs u → u = t.intern) ∧ t.relinked = t.intern :=
  ⟨.of_intern t, fun _ => SharedAs.eq_intern, t.relinked_eq_intern⟩

/-- The places of `FILE` refer to two slots, one of them twice; the command has two slots as well, and
`NAME` has one that no place refers to. -/
theorem sharedAs_intern_sample :
    let t : Tree := ⟨[.keyword "go", .placeholder "FILE", .placeholder "NAME", .placeholder "FILE",
        .keyword "go"],
      .required [.leaf 3, .optional [.leaf 4], .either [.leaf 1, .oneOrMore (.leaf 3), .leaf 0]]⟩
    let u : Tree := ⟨[.placeholder "FILE", .keyword "go"],
      .required [.leaf 0, .optional [.leaf 1], .either [.leaf 0, .oneOrMore (.leaf 0), .leaf 1]]⟩
    t.InRange ∧ t.SharedAs u ∧ u = t.intern ∧ t.relinked = u := by
  intro t u
  have hrange : t.InRange := by
    unfold InRange
    decide
  obtain ⟨hshared, hunique, hpass⟩ := t.sharedAs_intern
  have hu : t.SharedAs u := hshared
  exact ⟨hrange, hu, hunique u hu, hpass⟩

end Tree

end Synopsis
