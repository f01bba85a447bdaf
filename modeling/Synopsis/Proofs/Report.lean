import Synopsis.Proofs.Assignment
import Synopsis.Proofs.Registration

/-!
# What is reported, and in which order

The bindings of an invocation are put together in four passes: known options, options given, arguments
and commands of the pattern, and what the match has bound. Two views tell all about the result. Its keys
are the names in the order in which they are met first (`Bindings.keys_insertAll`), and under each name
the last entry is found (`Bindings.get?_insertAll`); bindings that agree in both are equal
(`Bindings.eq_of_get?`).

Where unknown options are faults, the second pass meets names of the first only, since every option
given is a copy of a known one; and the fourth meets names of the third only, since a match binds the
names of its own pattern. So the keys are known before any invocation is read, and the name of an option
is reported with its last occurrence or else with its default (`Interface.report_of_parse`).
-/

namespace Synopsis

/-! ## First occurrences -/

theorem removeAll_eq_nil {α : Type} [BEq α] [LawfulBEq α] {as bs : List α} (h : bs ⊆ as) :
    bs.removeAll as = [] := by
  rw [List.removeAll, List.filter_eq_nil_iff]
  intro b hb
  simp [h hb]

/-- What has been met before does not show among the first occurrences. -/
theorem eraseDups_append_of_subset {α : Type} [BEq α] [LawfulBEq α] {as bs : List α}
    (h : bs ⊆ as) : (as ++ bs).eraseDups = as.eraseDups := by
  rw [List.eraseDups_append, removeAll_eq_nil h, List.eraseDups_nil, List.append_nil]

theorem eraseDups_append_append_of_subset {α : Type} [BEq α] [LawfulBEq α] {as bs : List α}
    (h : bs ⊆ as) (cs : List α) : (as ++ bs ++ cs).eraseDups = (as ++ cs).eraseDups := by
  have hremove : cs.removeAll (as ++ bs) = cs.removeAll as := by
    apply List.filter_congr
    intro c _
    by_cases hc : c ∈ as
    · simp [hc]
    · have hcb : c ∉ bs := fun hb => hc (h hb)
      simp [hc, hcb]
  rw [List.eraseDups_append, eraseDups_append_of_subset h, hremove, ← List.eraseDups_append]

namespace Bindings

/-! ## The two views of bindings -/

/-- The keys are the names bound, in the order of their first binding. -/
theorem keys_insertAll (es : List (String × Value)) :
    (empty.insertAll es).keys = (es.map Prod.fst).eraseDups := by
  induction es using List.reverseRecOn with
  | nil => rfl
  | append_singleton es e ih =>
    have hlast : empty.insertAll (es ++ [e]) = (empty.insertAll es).insert e.1 e.2 := by
      rw [insertAll, List.foldl_append]
      rfl
    rw [hlast, keys_insert, ih, List.map_append]
    by_cases he : e.1 ∈ es.map Prod.fst
    · rw [if_pos (List.mem_eraseDups.mpr he), eraseDups_append_of_subset]
      simpa using he
    · have hkept : [e.1].removeAll (es.map Prod.fst) = [e.1] := by simpa [List.removeAll] using he
      rw [if_neg (fun hmem => he (List.mem_eraseDups.mp hmem)), List.eraseDups_append,
        List.map_singleton, hkept]
      rfl

theorem get?_cons_self (e : String × Value) (es : List (String × Value)) :
    get? ⟨e :: es⟩ e.1 = some e.2 := by
  simp [get?]

theorem get?_cons_of_ne {e : String × Value} {key : String} (h : key ≠ e.1)
    (es : List (String × Value)) : get? ⟨e :: es⟩ key = get? ⟨es⟩ key := by
  simp [get?, h.symm]

/-- Bindings without repeated keys are determined by their keys and by what is found under each. -/
theorem eq_of_get? {b b' : Bindings} (hnodup : b.keys.Nodup) (hkeys : b.keys = b'.keys)
    (hget : ∀ key ∈ b.keys, b.get? key = b'.get? key) : b = b' := by
  obtain ⟨es⟩ := b
  obtain ⟨fs⟩ := b'
  congr 1
  induction es generalizing fs with
  | nil => exact (List.map_eq_nil_iff.mp hkeys.symm).symm
  | cons e es ih =>
    cases fs with
    | nil => cases hkeys
    | cons f fs =>
      obtain ⟨hfirst, hrest⟩ := List.cons.inj hkeys
      obtain ⟨hnew, hnodup⟩ := List.nodup_cons.mp hnodup
      have hvalue : e.2 = f.2 := by
        have hfound := hget e.1 List.mem_cons_self
        rw [get?_cons_self, hfirst, get?_cons_self] at hfound
        exact Option.some.inj hfound
      have hes : es = fs := by
        refine ih hnodup fs hrest ?_
        intro key hkey
        have hne : key ≠ e.1 := fun heq => hnew (heq ▸ hkey)
        have hfound := hget key (List.mem_cons_of_mem _ hkey)
        rwa [get?_cons_of_ne hne, get?_cons_of_ne (hfirst ▸ hne)] at hfound
      rw [hes, Prod.ext hfirst hvalue]

theorem lastValue?_eq_none {es : List (String × Value)} {key : String}
    (h : key ∉ es.map Prod.fst) : lastValue? es key = none := by
  have hnone : es.filter (fun e => e.1 == key) = [] := by
    rw [List.filter_eq_nil_iff]
    intro e he hkey
    exact h (eq_of_beq hkey ▸ List.mem_map_of_mem he)
  rw [lastValue?, hnone]
  rfl

end Bindings

/-! ## The names that a match binds -/

/-- The names of the arguments and commands of a tree from left to right, repeats included. -/
def Tree.slotNames (t : Tree) : List String :=
  (t.leaves.filter Leaf.isWordSlot).filterMap Leaf.name?

theorem name?_of_mem_appendTo {name : Option String} {w : String} {bound : List Leaf} {m : Leaf}
    (h : m ∈ appendTo name w bound) : m.name? = name ∨ ∃ k ∈ bound, k.name? = m.name? := by
  fun_induction appendTo name w bound with
  | case1 =>
    rw [List.mem_singleton.mp h]
    exact Or.inl rfl
  | case2 ws ls =>
    rcases List.mem_cons.mp h with rfl | h
    · exact Or.inl rfl
    · exact Or.inr ⟨m, List.mem_cons_of_mem _ h, rfl⟩
  | case3 n ws ls _ ih =>
    rcases List.mem_cons.mp h with rfl | h
    · exact Or.inr ⟨_, List.mem_cons_self, rfl⟩
    · rcases ih h with hname | ⟨k, hk, hname⟩
      · exact Or.inl hname
      · exact Or.inr ⟨k, List.mem_cons_of_mem _ hk, hname⟩
  | case4 l ls _ ih =>
    rcases List.mem_cons.mp h with rfl | h
    · exact Or.inr ⟨_, List.mem_cons_self, rfl⟩
    · rcases ih h with hname | ⟨k, hk, hname⟩
      · exact Or.inl hname
      · exact Or.inr ⟨k, List.mem_cons_of_mem _ hk, hname⟩

/-- A leaf records a word under its own name, and no other name is new. -/
theorem name?_of_mem_record {l m : Leaf} {w : String} {bound : List Leaf}
    (h : m ∈ l.record w bound) : m.name? = l.name? ∨ ∃ k ∈ bound, k.name? = m.name? := by
  have hsnoc : ∀ last : Leaf, m ∈ bound ++ [last] →
      m.name? = last.name? ∨ ∃ k ∈ bound, k.name? = m.name? := by
    intro last hm
    rcases List.mem_append.mp hm with hm | hm
    · exact Or.inr ⟨m, hm, rfl⟩
    · exact Or.inl (List.mem_singleton.mp hm ▸ rfl)
  cases l with
  | argument name v =>
    simp only [Leaf.record, bindWord] at h
    split at h
    · exact name?_of_mem_appendTo h
    · exact hsnoc (.argument name (.str w)) h
  | command name given => exact hsnoc (.command name true) h
  | option o => exact Or.inr ⟨m, h, rfl⟩
  | anyOptions => exact Or.inr ⟨m, h, rfl⟩

theorem name?_of_mem_recordAll {α : Type} {f : α → Leaf} {pairs : List (α × String)} {m : Leaf}
    (h : m ∈ recordAll f pairs []) : ∃ e ∈ pairs, m.name? = (f e.1).name? := by
  induction pairs using List.reverseRecOn generalizing m with
  | nil => cases h
  | append_singleton pairs e ih =>
    rw [recordAll, List.foldl_append] at h
    rcases name?_of_mem_record h with hname | ⟨k, hk, hname⟩
    · exact ⟨e, List.mem_append_right _ (List.mem_singleton_self e), hname⟩
    · obtain ⟨e', he', hname'⟩ := ih hk
      exact ⟨e', List.mem_append_left _ he', hname.symm.trans hname'⟩

/-- A match binds names of arguments and commands of its tree only. -/
theorem Tree.names_collected_subset {t : Tree} {leaves : List Leaf} (h : ∀ l ∈ leaves, l.Given)
    (hmatched : (t.matchLeaves leaves).matched = true) :
    (t.matchLeaves leaves).collected.filterMap Leaf.name? ⊆ t.slotNames := by
  obtain ⟨w, hw, hrun⟩ := t.root.follows_matcher t.leafAt ⟨leaves, []⟩ hmatched
  obtain ⟨pairs, hids, -, -, hcollected⟩ := exists_pairs_of_chain? t.leafAt h hrun
  have hbound : (t.matchLeaves leaves).collected = recordAll t.leafAt pairs [] := hcollected
  intro name hname
  rw [hbound] at hname
  obtain ⟨m, hm, hmname⟩ := List.mem_filterMap.mp hname
  obtain ⟨e, he, hename⟩ := name?_of_mem_recordAll hm
  -- the slot that took the word is met by the word of the pattern, so it is in the tree
  have hslot : e.1 ∈ w.filter fun i => (t.leafAt i).isWordSlot := by
    rw [← hids]
    exact List.mem_map_of_mem he
  rw [List.mem_filter] at hslot
  have hleaf : t.leafAt e.1 ∈ t.leaves :=
    List.mem_map_of_mem (Pattern.mem_flat_of_mem_words hw hslot.1)
  exact List.mem_filterMap.mpr
    ⟨t.leafAt e.1, List.mem_filter.mpr ⟨hleaf, hslot.2⟩, hename.symm.trans hmname⟩

/-! ## The four passes -/

theorem Registry.Lists.name_mem {r : Registry} {o : Opt} (h : r.Lists o) :
    o.name ∈ r.map Opt.name := by
  obtain ⟨e, he, hshort, hlong, -⟩ := h
  refine List.mem_map.mpr ⟨e, he, ?_⟩
  rw [Opt.name, Opt.name, hshort, hlong]

namespace Interface

theorem filterMap_occurrenceBinding? (ls : List Leaf) :
    ls.filterMap occurrenceBinding? = (occurrences ls).map optionBinding := by
  rw [occurrences, List.map_filterMap]
  congr 1
  funext l
  cases l <;> rfl

theorem map_fst_filterMap_leafBinding? (ls : List Leaf) :
    (ls.filterMap leafBinding?).map Prod.fst = ls.filterMap Leaf.name? := by
  rw [List.map_filterMap]
  congr 1
  funext l
  rw [leafBinding?, Option.map_map]
  exact Option.map_id_apply

/-- The names met in the four passes. -/
theorem map_fst_assembled (i : Interface) (known : Registry) (leaves collected : List Leaf) :
    (i.assembled known leaves collected).map Prod.fst =
      known.map Opt.name ++ (occurrences leaves).map Opt.name ++ i.tree.slotNames ++
        collected.filterMap Leaf.name? := by
  rw [assembled, filterMap_occurrenceBinding?, filterMap_slotBinding?]
  simp only [List.map_append, map_fst_filterMap_leafBinding?, List.map_map]
  rfl

/-- The second pass and the fourth meet no new name. -/
theorem keys_assembled (i : Interface) {known : Registry} {leaves collected : List Leaf}
    (hgiven : ∀ o ∈ occurrences leaves, known.Lists o)
    (hcollected : collected.filterMap Leaf.name? ⊆ i.tree.slotNames) :
    (Bindings.empty.insertAll (i.assembled known leaves collected)).keys =
      (known.map Opt.name ++ i.tree.slotNames).eraseDups := by
  have hoptions : (occurrences leaves).map Opt.name ⊆ known.map Opt.name := by
    intro name hname
    obtain ⟨o, ho, rfl⟩ := List.mem_map.mp hname
    exact (hgiven o ho).name_mem
  rw [Bindings.keys_insertAll, map_fst_assembled, eraseDups_append_of_subset,
    eraseDups_append_append_of_subset hoptions]
  exact fun name hname => List.mem_append_right _ (hcollected hname)

theorem lastValue?_optionBindings (os : List Opt) (name : String) :
    Bindings.lastValue? (os.map optionBinding) name =
      (os.filter fun o => o.name == name).getLast?.map Opt.value := by
  rw [Bindings.lastValue?, List.filter_map, List.getLast?_map, Option.map_map]
  rfl

/-- The option that decides what is reported under a name: the last one given, or else the last one
known. -/
def deciding? (known given : List Opt) (name : String) : Option Opt :=
  (given.filter fun o => o.name == name).getLast?.or (known.filter fun o => o.name == name).getLast?

/-- A name that the pattern does not have is found with the value of the option that decides it. -/
theorem get?_assembled_of_notMem (i : Interface) (known : Registry) {leaves collected : List Leaf}
    (hcollected : collected.filterMap Leaf.name? ⊆ i.tree.slotNames) {name : String}
    (hname : name ∉ i.tree.slotNames) :
    (Bindings.empty.insertAll (i.assembled known leaves collected)).get? name =
      (deciding? known (occurrences leaves) name).map Opt.value := by
  have hslots : Bindings.lastValue? (i.tree.leaves.filterMap slotBinding?) name = none := by
    apply Bindings.lastValue?_eq_none
    rwa [filterMap_slotBinding?, map_fst_filterMap_leafBinding?]
  have hbound : Bindings.lastValue? (collected.filterMap leafBinding?) name = none := by
    apply Bindings.lastValue?_eq_none
    rw [map_fst_filterMap_leafBinding?]
    exact fun hmem => hname (hcollected hmem)
  rw [Bindings.get?_insertAll, assembled, Bindings.lastValue?_append, Bindings.lastValue?_append,
    Bindings.lastValue?_append, hslots, hbound, filterMap_occurrenceBinding?,
    lastValue?_optionBindings, lastValue?_optionBindings, deciding?, Option.map_or]
  simp [Bindings.get?, Bindings.empty]

/-! ## What is reported -/

variable {i : Interface} {words : List String}

theorem mode_eq_strict (hpolicy : i.settings.policy = .reject) : i.settings.mode = .strict := by
  rw [Settings.mode, hpolicy]
  rfl

/-- Where unknown options are faults, reading an invocation leaves the known options as they were. -/
theorem registry_readInvocation (hpolicy : i.settings.policy = .reject) (words : List String) :
    (readInvocation i.settings.mode i.options words).registry = i.options := by
  rw [mode_eq_strict hpolicy]
  exact (grounded_readInvocation .strict i.options words).grows.eq_of_strict

/-- Then every option given is a copy of a known one. -/
theorem lists_of_readInvocation (hpolicy : i.settings.policy = .reject) {leaves : List Leaf}
    (hleaves : (readInvocation i.settings.mode i.options words).outcome = .ok leaves) :
    ∀ o ∈ occurrences leaves, i.options.Lists o := by
  intro o ho
  have hlisted := (grounded_readInvocation i.settings.mode i.options words).listed leaves hleaves o
    (mem_occurrences.mp ho)
  rwa [registry_readInvocation hpolicy] at hlisted

/-- The keys are fixed by the interface. -/
theorem keys_of_parse (hpolicy : i.settings.policy = .reject) {b : Bindings}
    (h : i.parse words = .ok b) :
    b.keys = (i.options.map Opt.name ++ i.tree.slotNames).eraseDups := by
  obtain ⟨leaves, hleaves, hmatched, -, rfl⟩ := exists_match_of_parse h
  rw [registry_readInvocation hpolicy]
  exact i.keys_assembled (lists_of_readInvocation hpolicy hleaves)
    (Tree.names_collected_subset (given_of_readInvocation hleaves) hmatched)

/-- **What is reported.** Where unknown options are faults, the keys of the bindings are the names of
the known options and then of the arguments and commands of the pattern, each where it stands first,
whatever the invocation; and a key that is no argument or command has the value of the last option of
that name in the invocation, or if there is none of the last one known. -/
theorem report_of_parse (hpolicy : i.settings.policy = .reject) {b : Bindings}
    (h : i.parse words = .ok b) :
    b.keys = (i.options.map Opt.name ++ i.tree.slotNames).eraseDups ∧
      (∀ words' b', i.parse words' = .ok b' → b'.keys = b.keys) ∧
      ∃ leaves, (readInvocation i.settings.mode i.options words).outcome = .ok leaves ∧
        ∀ key ∈ b.keys, key ∉ i.tree.slotNames →
          ∃ o, deciding? i.options (occurrences leaves) key = some o ∧
            b.get? key = some o.value := by
  have hkeys := keys_of_parse hpolicy h
  refine ⟨hkeys, ?_, ?_⟩
  · intro words' b' h'
    rw [keys_of_parse hpolicy h', hkeys]
  · obtain ⟨leaves, hleaves, hmatched, -, rfl⟩ := exists_match_of_parse h
    refine ⟨leaves, hleaves, ?_⟩
    intro key hkey hslot
    rw [registry_readInvocation hpolicy] at hkeys hkey ⊢
    rw [i.get?_assembled_of_notMem i.options
      (Tree.names_collected_subset (given_of_readInvocation hleaves) hmatched) hslot]
    -- a key that is no slot is the name of a known option, so some option decides it
    rw [hkeys, List.mem_eraseDups, List.mem_append] at hkey
    obtain ⟨e, he, rfl⟩ := List.mem_map.mp (hkey.resolve_right hslot)
    cases hdecides : deciding? i.options (occurrences leaves) e.name with
    | some o => exact ⟨o, rfl, rfl⟩
    | none =>
      obtain ⟨-, hnone⟩ := Option.or_eq_none_iff.mp hdecides
      have hmem : e ∈ i.options.filter fun o => o.name == e.name :=
        List.mem_filter.mpr ⟨he, beq_self_eq_true _⟩
      rw [List.getLast?_eq_none_iff.mp hnone] at hmem
      cases hmem

/-- The interface of `m [-q] [--to=W] N` in which `--to` has a default. -/
def sender : Interface :=
  { doc := "usage: m [-q] [--to=W] N\n\n--to=W  Whom [default: me]"
    usage := "usage: m [-q] [--to=W] N"
    options := [⟨none, some "--to", 1, .str "me"⟩, .ofShort "-q"]
    tree := ⟨[.option (.ofShort "-q"), .option ⟨none, some "--to", 1, .str "W"⟩, .placeholder "N"],
      .required [.optional [.leaf 0], .optional [.leaf 1], .leaf 2]⟩
    settings := .default }

/-- The option is given twice, once on either side of the word; the flag is not given. -/
theorem report_of_sender :
    let words := ["--to=you", "a", "--to", "her"]
    let b : Bindings := ⟨[("--to", .str "her"), ("-q", .bool false), ("N", .str "a")]⟩
    sender.settings.policy = .reject ∧ sender.parse words = .ok b ∧
      b.keys = (sender.options.map Opt.name ++ sender.tree.slotNames).eraseDups ∧
      (∀ words' b', sender.parse words' = .ok b' → b'.keys = b.keys) ∧
      ∃ leaves, (readInvocation sender.settings.mode sender.options words).outcome = .ok leaves ∧
        ∀ key ∈ b.keys, key ∉ sender.tree.slotNames →
          ∃ o, deciding? sender.options (occurrences leaves) key = some o ∧
            b.get? key = some o.value := by
  intro words b
  have hpolicy : sender.settings.policy = .reject := rfl
  have hb : sender.parse words = .ok b := by cbv
  exact ⟨hpolicy, hb, report_of_parse hpolicy hb⟩

end Interface

end Synopsis
