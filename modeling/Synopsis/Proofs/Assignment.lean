import Mathlib
import Synopsis.Interface
import Synopsis.Proofs.Normal
import Synopsis.Proofs.Positionals

/-!
# Where the words of an invocation go

No positional word of an invocation is lost or overwritten. A match that takes every leaf hands each
word to one argument or command of the pattern, and the bindings that the caller gets say exactly
which: a command is true if and only if a word was handed to it, an argument that collects has all its
words in order, and any other argument has at most one.

The proof follows the word through the program. A word of the pattern that leads through the match
(`Pattern.follows_matcher`) hands out the words (`exists_pairs_of_chain?`). What is bound to one name
depends on the words handed to that name only (`filter_named_recordAll`), since each name has one slot.
The last binding of a name is what the caller finds (`Bindings.get?_insertAll`), and the match binds
last of all.
-/

namespace Synopsis

/-! ## The last binding of a name counts -/

namespace Bindings

/-- The value that the last entry for a name holds. -/
def lastValue? (es : List (String × Value)) (key : String) : Option Value :=
  (es.filter fun e => e.1 == key).getLast?.map Prod.snd

theorem lastValue?_append (es fs : List (String × Value)) (key : String) :
    lastValue? (es ++ fs) key = (lastValue? fs key).or (lastValue? es key) := by
  unfold lastValue?
  rw [List.filter_append, List.getLast?_append]
  cases (fs.filter fun e => e.1 == key).getLast? with
  | none => simp
  | some e => simp

/-- After binding several names in order, a name has the value of its last binding. -/
theorem get?_insertAll (b : Bindings) (es : List (String × Value)) (key : String) :
    (b.insertAll es).get? key = (lastValue? es key).or (b.get? key) := by
  induction es generalizing b with
  | nil => rfl
  | cons e es ih =>
    have hcons : b.insertAll (e :: es) = (b.insert e.1 e.2).insertAll es := rfl
    rw [hcons, ih, ← List.singleton_append, lastValue?_append, Option.or_assoc]
    congr 1
    by_cases he : e.1 = key
    · subst he
      rw [get?_insert_self]
      simp [lastValue?]
    · rw [get?_insert_of_ne b e.2 (Ne.symm he)]
      simp [lastValue?, he]

end Bindings

/-! ## What is bound to one name -/

/-- The leaf is reported under the name. -/
def Leaf.isNamed (name : String) (l : Leaf) : Bool := l.name? == some name

theorem isNamed_eq_true {name : String} {l : Leaf} :
    l.isNamed name = true ↔ l.name? = some name := by
  rw [Leaf.isNamed, beq_iff_eq]

theorem filter_named_appendTo_self (name w : String) (bound : List Leaf) :
    (appendTo (some name) w bound).filter (Leaf.isNamed name) =
      appendTo (some name) w (bound.filter (Leaf.isNamed name)) := by
  fun_induction appendTo (some name) w bound with
  | case1 => simp [appendTo, Leaf.isNamed, Leaf.name?]
  | case2 ws ls => simp [appendTo, Leaf.isNamed, Leaf.name?]
  | case3 n ws ls hne ih => simpa [Leaf.isNamed, Leaf.name?, hne] using ih
  | case4 l ls hlist ih =>
    rw [List.filter_cons, List.filter_cons, ih]
    split
    · -- a leaf that binds no list is passed over on both sides
      rw [appendTo]
      exact hlist
    · rfl

theorem filter_named_appendTo_of_ne {name other : String} (hne : other ≠ name) (w : String)
    (bound : List Leaf) :
    (appendTo (some other) w bound).filter (Leaf.isNamed name) =
      bound.filter (Leaf.isNamed name) := by
  fun_induction appendTo (some other) w bound with
  | case1 => simp [Leaf.isNamed, Leaf.name?, hne]
  | case2 ws ls => simp [Leaf.isNamed, Leaf.name?, hne]
  | case3 n ws ls _ ih => rw [List.filter_cons, List.filter_cons, ih]
  | case4 l ls _ ih => rw [List.filter_cons, List.filter_cons, ih]

/-- A leaf of the name records the same whether or not other names are bound. -/
theorem filter_named_record_self {l : Leaf} {name : String} (hname : l.name? = some name)
    (w : String) (bound : List Leaf) :
    (l.record w bound).filter (Leaf.isNamed name) =
      l.record w (bound.filter (Leaf.isNamed name)) := by
  cases l with
  | argument n v =>
    obtain rfl : n = some name := hname
    simp only [Leaf.record, bindWord]
    split
    · exact filter_named_appendTo_self name w bound
    · simp [Leaf.isNamed, Leaf.name?]
  | command n g =>
    obtain rfl := Option.some.inj hname
    simp [Leaf.record, Leaf.isNamed, Leaf.name?]
  | option o => rfl
  | anyOptions => rfl

/-- A leaf of another name leaves what is bound to the name alone. -/
theorem filter_named_record_of_ne {l : Leaf} {name other : String} (hother : l.name? = some other)
    (hne : other ≠ name) (w : String) (bound : List Leaf) :
    (l.record w bound).filter (Leaf.isNamed name) = bound.filter (Leaf.isNamed name) := by
  cases l with
  | argument n v =>
    obtain rfl : n = some other := hother
    simp only [Leaf.record, bindWord]
    split
    · exact filter_named_appendTo_of_ne hne w bound
    · simp [Leaf.isNamed, Leaf.name?, hne]
  | command n g =>
    obtain rfl := Option.some.inj hother
    simp [Leaf.record, Leaf.isNamed, Leaf.name?, hne]
  | option o => rfl
  | anyOptions => rfl

section Handed

variable {α : Type} [DecidableEq α]

/-- The words handed to one place, in order. -/
def handedTo (a : α) (pairs : List (α × String)) : List String :=
  (pairs.filter fun e => e.1 = a).map Prod.snd

/-- The bindings that one leaf makes of the words it takes, when nothing else is bound. -/
def Leaf.recordOwn (l : Leaf) (ws : List String) : List Leaf :=
  ws.foldl (fun bound w => l.record w bound) []

/-- What is bound to a name depends on the words handed to its place only, when no other place has
that name. -/
theorem filter_named_recordAll {f : α → Leaf} {a : α} {name : String}
    (hname : (f a).name? = some name) {pairs : List (α × String)}
    (hnames : ∀ e ∈ pairs, ∃ other, (f e.1).name? = some other ∧ (other = name → e.1 = a)) :
    (recordAll f pairs []).filter (Leaf.isNamed name) = (f a).recordOwn (handedTo a pairs) := by
  -- by induction on the words handed out, the last one first
  induction pairs using List.reverseRecOn with
  | nil => rfl
  | append_singleton pairs e ih =>
    have hpairs := ih fun e' he' => hnames e' (List.mem_append_left _ he')
    obtain ⟨other, hother, hsame⟩ := hnames e (List.mem_append_right _ (List.mem_singleton_self e))
    have hlast : recordAll f (pairs ++ [e]) [] = (f e.1).record e.2 (recordAll f pairs []) := by
      rw [recordAll, List.foldl_append]
      rfl
    rw [hlast]
    by_cases hea : e.1 = a
    · have hhanded : handedTo a (pairs ++ [e]) = handedTo a pairs ++ [e.2] := by
        rw [handedTo, List.filter_append, List.map_append, ← handedTo,
          List.filter_cons_of_pos (by simpa using hea), List.filter_nil, List.map_cons, List.map_nil]
      rw [hea, filter_named_record_self hname, hpairs, hhanded, Leaf.recordOwn, Leaf.recordOwn,
        List.foldl_append]
      rfl
    · have hhanded : handedTo a (pairs ++ [e]) = handedTo a pairs := by
        rw [handedTo, List.filter_append, List.map_append, ← handedTo,
          List.filter_cons_of_neg (by simpa using hea), List.filter_nil, List.map_nil,
          List.append_nil]
      rw [filter_named_record_of_ne hother (fun h => hea (hsame h)), hpairs, hhanded]

end Handed

/-! ### What one leaf makes of its words -/

theorem recordOwn_collector (name : String) (ws : List String) :
    (Leaf.argument (some name) (.list [])).recordOwn ws =
      if ws = [] then [] else [.argument (some name) (.list ws)] := by
  induction ws using List.reverseRecOn with
  | nil => rfl
  | append_singleton ws w ih =>
    rw [Leaf.recordOwn, List.foldl_append, ← Leaf.recordOwn, ih, List.foldl_cons, List.foldl_nil]
    by_cases hws : ws = []
    · simp [hws, Leaf.record, bindWord, Value.isList, appendTo]
    · simp [hws, Leaf.record, bindWord, Value.isList, appendTo]

theorem recordOwn_placeholder (name : String) (ws : List String) :
    (Leaf.placeholder name).recordOwn ws = ws.map fun w => .argument (some name) (.str w) := by
  induction ws using List.reverseRecOn with
  | nil => rfl
  | append_singleton ws w ih =>
    rw [Leaf.recordOwn, List.foldl_append, ← Leaf.recordOwn, ih, List.map_append]
    rfl

theorem recordOwn_keyword (name : String) (ws : List String) :
    (Leaf.keyword name).recordOwn ws = ws.map fun _ => .command name true := by
  induction ws using List.reverseRecOn with
  | nil => rfl
  | append_singleton ws w ih =>
    rw [Leaf.recordOwn, List.foldl_append, ← Leaf.recordOwn, ih, List.map_append]
    rfl

/-! ## What the caller finds -/

namespace Interface

theorem filter_filterMap_leafBinding? (ls : List Leaf) (name : String) :
    (ls.filterMap leafBinding?).filter (fun e => e.1 == name) =
      (ls.filter (Leaf.isNamed name)).map fun l => (name, l.value) := by
  induction ls with
  | nil => rfl
  | cons l ls ih =>
    rw [List.filterMap_cons, List.filter_cons]
    cases hname : l.name? with
    | none => simp [leafBinding?, Leaf.isNamed, hname, ih]
    | some other => by_cases ho : other = name <;> simp [leafBinding?, Leaf.isNamed, hname, ho, ih]

theorem lastValue?_leafBindings (ls : List Leaf) (name : String) :
    Bindings.lastValue? (ls.filterMap leafBinding?) name =
      (ls.filter (Leaf.isNamed name)).getLast?.map Leaf.value := by
  rw [Bindings.lastValue?, filter_filterMap_leafBinding?, List.getLast?_map, Option.map_map]
  rfl

theorem filterMap_slotBinding? (ls : List Leaf) :
    ls.filterMap slotBinding? = (ls.filter Leaf.isWordSlot).filterMap leafBinding? := by
  rw [List.filterMap_filter]
  rfl

/-- The value that a leaf of the pattern has in the pattern itself, if no other leaf has its name. -/
theorem lastValue?_slotBindings {ls : List Leaf} {l : Leaf} {name : String} (hl : l ∈ ls)
    (hslot : l.isWordSlot = true) (hname : l.name? = some name)
    (honly : ∀ m ∈ ls, m.isWordSlot = true → m.name? = some name → m = l) :
    Bindings.lastValue? (ls.filterMap slotBinding?) name = some l.value := by
  rw [filterMap_slotBinding?, lastValue?_leafBindings]
  have hmem : l ∈ (ls.filter Leaf.isWordSlot).filter (Leaf.isNamed name) := by
    rw [List.mem_filter, List.mem_filter, isNamed_eq_true]
    exact ⟨⟨hl, hslot⟩, hname⟩
  cases hlast : ((ls.filter Leaf.isWordSlot).filter (Leaf.isNamed name)).getLast? with
  | none =>
    rw [List.getLast?_eq_none_iff.mp hlast] at hmem
    cases hmem
  | some m =>
    have hm := List.mem_of_getLast? hlast
    rw [List.mem_filter, List.mem_filter, isNamed_eq_true] at hm
    rw [honly m hm.1.1 hm.1.2 hm.2]
    rfl

/-- A name of the pattern is found with the last value that the match has bound to it, or else with
the value it has in the pattern; options of that name are overruled. -/
theorem get?_assembled (i : Interface) (known : Registry) (leaves collected : List Leaf) {l : Leaf}
    {name : String} (hl : l ∈ i.tree.leaves) (hslot : l.isWordSlot = true)
    (hname : l.name? = some name)
    (honly : ∀ m ∈ i.tree.leaves, m.isWordSlot = true → m.name? = some name → m = l) :
    (Bindings.empty.insertAll (i.assembled known leaves collected)).get? name =
      some (((collected.filter (Leaf.isNamed name)).getLast?.map Leaf.value).getD l.value) := by
  rw [Bindings.get?_insertAll, assembled, Bindings.lastValue?_append, Bindings.lastValue?_append,
    lastValue?_leafBindings, lastValue?_slotBindings hl hslot hname honly]
  cases (collected.filter (Leaf.isNamed name)).getLast? with
  | none => rfl
  | some m => rfl

end Interface

/-! ## Nothing is lost -/

/-- The leaf is the argument of the given name. -/
def Leaf.isArgumentNamed (name : String) : Leaf → Bool
  | argument (some n) _ => n == name
  | _ => false

/-- The words handed to the argument of the given name, in order. -/
def wordsFor (name : String) (pairs : List (Leaf × String)) : List String :=
  (pairs.filter fun e => e.1.isArgumentNamed name).map Prod.snd

/-- **`Handout tree words b pairs`**: the pairs hand every word to one argument or command of the
tree, and the bindings report just that. -/
structure Handout (tree : Tree) (words : List String) (b : Bindings)
    (pairs : List (Leaf × String)) : Prop where
  /-- Every word is handed out once, in order. -/
  words : pairs.map Prod.snd = words
  /-- Words are handed to named arguments and to commands of the tree. -/
  slots : ∀ e ∈ pairs, e.1 ∈ tree.leaves ∧ e.1.isWordSlot = true ∧ e.1.name?.isSome = true
  /-- A command has its own name handed to it, and is reported as given. -/
  command : ∀ e ∈ pairs, ∀ name given, e.1 = .command name given →
    e.2 = name ∧ b.get? name = some (.bool true)
  /-- A command that has no word is reported as not given. -/
  idle : ∀ name given, .command name given ∈ tree.leaves →
    (∀ e ∈ pairs, ∀ g, e.1 ≠ .command name g) → b.get? name = some (.bool false)
  /-- An argument that collects is reported with all its words, in order. -/
  collector : ∀ name items, .argument (some name) (.list items) ∈ tree.leaves →
    b.get? name = some (.list (wordsFor name pairs))
  /-- Any other argument has at most one word and is reported with it. -/
  scalar : ∀ name v, .argument (some name) v ∈ tree.leaves → v.isList = false →
    (wordsFor name pairs = [] ∧ b.get? name = some .null) ∨
      ∃ w, wordsFor name pairs = [w] ∧ b.get? name = some (.str w)

section Pairing

variable {t : Tree} (ht : t.Read) {w : List Nat} (hw : w ∈ t.normalize.root.words)
  {pairs : List (Nat × String)}
  (hids : pairs.map Prod.fst = w.filter fun i => (t.normalize.leafAt i).isWordSlot)

include hw hids in
theorem slot_of_mem_pairs {e : Nat × String} (he : e ∈ pairs) :
    e.1 ∈ t.normalize.root.flat ∧ (t.normalize.leafAt e.1).isWordSlot = true := by
  have hmem : e.1 ∈ w.filter fun i => (t.normalize.leafAt i).isWordSlot := by
    rw [← hids]
    exact List.mem_map_of_mem he
  rw [List.mem_filter] at hmem
  exact ⟨Pattern.mem_flat_of_mem_words hw hmem.1, hmem.2⟩

include hids in
theorem length_handedTo_le (i : Nat) : (handedTo i pairs).length ≤ w.count i := by
  have hcount : (handedTo i pairs).length = (pairs.map Prod.fst).count i := by
    rw [handedTo, List.length_map, List.count_eq_length_filter, List.filter_map, List.length_map]
    simp only [Function.comp_def, beq_eq_decide]
  rw [hcount, hids]
  exact List.filter_sublist.count_le i

include ht hw hids in
/-- The words handed to an argument by name are those handed to its slot. -/
theorem wordsFor_pairs {i : Nat} {name : String} {v : Value} (hi : i ∈ t.normalize.root.flat)
    (hl : t.normalize.leafAt i = .argument (some name) v) :
    wordsFor name (pairs.map fun e => (t.normalize.leafAt e.1, e.2)) = handedTo i pairs := by
  rw [wordsFor, handedTo, List.filter_map, List.map_map]
  have hfilter : pairs.filter (fun e => (t.normalize.leafAt e.1).isArgumentNamed name) =
      pairs.filter fun e => e.1 = i := by
    apply List.filter_congr
    intro e he
    obtain ⟨heflat, heslot⟩ := slot_of_mem_pairs hw hids he
    by_cases hei : e.1 = i
    · simp [hei, hl, Leaf.isArgumentNamed]
    · have hnot : (t.normalize.leafAt e.1).isArgumentNamed name = false := by
        rw [Bool.eq_false_iff]
        intro harg
        apply hei
        refine Tree.slot_eq_of_name_eq ht heflat hi heslot ?_ ?_
        · rw [hl]
          rfl
        · rw [hl]
          unfold Leaf.isArgumentNamed at harg
          split at harg
          · next n u hn =>
            rw [hn, eq_of_beq harg]
            rfl
          · cases harg
      simp [hei, hnot]
  exact congrArg (List.map Prod.snd) hfilter

include ht hw hids in
/-- What the caller finds under the name of a slot is what the slot makes of its words. -/
theorem get?_assembled_pairs {i : Interface} (htree : i.tree = t.normalize) (known : Registry)
    (leaves : List Leaf) {j : Nat} (hj : j ∈ t.normalize.root.flat)
    (hslot : (t.normalize.leafAt j).isWordSlot = true) {name : String}
    (hname : (t.normalize.leafAt j).name? = some name) :
    (Bindings.empty.insertAll
        (i.assembled known leaves (recordAll t.normalize.leafAt pairs []))).get? name =
      some ((((t.normalize.leafAt j).recordOwn (handedTo j pairs)).getLast?.map Leaf.value).getD
        (t.normalize.leafAt j).value) := by
  have honly : ∀ m ∈ i.tree.leaves, m.isWordSlot = true → m.name? = some name →
      m = t.normalize.leafAt j := by
    rw [htree]
    intro m hm hmslot hmname
    obtain ⟨k, hk, rfl⟩ := List.mem_map.mp hm
    rw [Tree.slot_eq_of_name_eq ht hk hj hmslot hslot (hmname.trans hname.symm)]
  have hmem : t.normalize.leafAt j ∈ i.tree.leaves := by
    rw [htree]
    exact List.mem_map_of_mem hj
  have hown : (recordAll t.normalize.leafAt pairs []).filter (Leaf.isNamed name) =
      (t.normalize.leafAt j).recordOwn (handedTo j pairs) := by
    apply filter_named_recordAll hname
    intro e he
    obtain ⟨heflat, heslot⟩ := slot_of_mem_pairs hw hids he
    obtain ⟨other, hother⟩ := (Tree.settled_leafAt_normalize ht e.1).exists_name heslot
    refine ⟨other, hother, ?_⟩
    rintro rfl
    exact Tree.slot_eq_of_name_eq ht heflat hj heslot hslot (hother.trans hname.symm)
  rw [Interface.get?_assembled i known leaves _ hmem hslot hname honly, hown]

variable {i : Interface} (htree : i.tree = t.normalize) (known : Registry) (leaves : List Leaf)

include ht hw hids htree in
theorem get?_of_collector {j : Nat} (hj : j ∈ t.normalize.root.flat) {name : String}
    (hl : t.normalize.leafAt j = .argument (some name) (.list [])) :
    (Bindings.empty.insertAll
        (i.assembled known leaves (recordAll t.normalize.leafAt pairs []))).get? name =
      some (.list (handedTo j pairs)) := by
  rw [get?_assembled_pairs ht hw hids htree known leaves hj (by rw [hl]; rfl) (by rw [hl]; rfl), hl,
    recordOwn_collector]
  split
  · next hnone =>
    rw [hnone]
    rfl
  · rfl

include ht hw hids htree in
theorem get?_of_placeholder {j : Nat} (hj : j ∈ t.normalize.root.flat) {name : String}
    (hl : t.normalize.leafAt j = .placeholder name) :
    (Bindings.empty.insertAll
        (i.assembled known leaves (recordAll t.normalize.leafAt pairs []))).get? name =
      some (((handedTo j pairs).getLast?.map Value.str).getD .null) := by
  rw [get?_assembled_pairs ht hw hids htree known leaves hj (by rw [hl]; rfl) (by rw [hl]; rfl), hl,
    recordOwn_placeholder, List.getLast?_map, Option.map_map]
  rfl

include ht hw hids htree in
theorem get?_of_keyword {j : Nat} (hj : j ∈ t.normalize.root.flat) {name : String}
    (hl : t.normalize.leafAt j = .keyword name) :
    (Bindings.empty.insertAll
        (i.assembled known leaves (recordAll t.normalize.leafAt pairs []))).get? name =
      some (.bool (handedTo j pairs != [])) := by
  rw [get?_assembled_pairs ht hw hids htree known leaves hj (by rw [hl]; rfl) (by rw [hl]; rfl), hl,
    recordOwn_keyword, List.getLast?_map]
  cases hlast : (handedTo j pairs).getLast? with
  | none =>
    rw [List.getLast?_eq_none_iff.mp hlast]
    rfl
  | some v =>
    have hne : handedTo j pairs ≠ [] := by
      intro hnil
      rw [hnil] at hlast
      cases hlast
    rw [bne_iff_ne.mpr hne]
    rfl

include ht hw hids htree in
/-- The words that a run of leaves takes are handed out, and the bindings assembled after the run
report it. -/
theorem handout_of_pairs (haccepts : ∀ e ∈ pairs, (t.normalize.leafAt e.1).Accepts e.2) :
    Handout t.normalize (pairs.map Prod.snd)
      (Bindings.empty.insertAll
        (i.assembled known leaves (recordAll t.normalize.leafAt pairs [])))
      (pairs.map fun e => (t.normalize.leafAt e.1, e.2)) where
  words := by
    rw [List.map_map]
    rfl
  slots := by
    intro e he
    obtain ⟨p, hp, rfl⟩ := List.mem_map.mp he
    obtain ⟨hflat, hslot⟩ := slot_of_mem_pairs hw hids hp
    obtain ⟨name, hname⟩ := (Tree.settled_leafAt_normalize ht p.1).exists_name hslot
    exact ⟨List.mem_map_of_mem hflat, hslot, by rw [hname]; rfl⟩
  command := by
    intro e he name given hcommand
    obtain ⟨p, hp, rfl⟩ := List.mem_map.mp he
    obtain ⟨hflat, -⟩ := slot_of_mem_pairs hw hids hp
    have hsettled := Tree.settled_leafAt_normalize ht p.1
    have haccept := haccepts p hp
    simp only at hcommand
    rw [hcommand] at hsettled haccept
    refine ⟨haccept, ?_⟩
    cases hsettled with
    | keyword hkind =>
      rw [get?_of_keyword ht hw hids htree known leaves hflat hcommand]
      have hhanded : p.2 ∈ handedTo p.1 pairs :=
        List.mem_map.mpr ⟨p, List.mem_filter.mpr ⟨hp, by simp⟩, rfl⟩
      rw [bne_iff_ne.mpr (List.ne_nil_of_mem hhanded)]
  idle := by
    intro name given hmem hidle
    obtain ⟨j, hj, hl⟩ := List.mem_map.mp hmem
    have hsettled := Tree.settled_leafAt_normalize ht j
    rw [hl] at hsettled
    cases hsettled with
    | keyword hkind =>
      rw [get?_of_keyword ht hw hids htree known leaves hj hl]
      have hnone : handedTo j pairs = [] := by
        rw [handedTo, List.map_eq_nil_iff, List.filter_eq_nil_iff]
        intro p hp hpj
        refine hidle _ (List.mem_map_of_mem hp) false ?_
        rw [of_decide_eq_true hpj]
        exact hl
      rw [hnone]
      rfl
  collector := by
    intro name items hmem
    obtain ⟨j, hj, hl⟩ := List.mem_map.mp hmem
    have hsettled := Tree.settled_leafAt_normalize ht j
    rw [hl] at hsettled
    cases hsettled with
    | collector hkind =>
      rw [get?_of_collector ht hw hids htree known leaves hj hl, wordsFor_pairs ht hw hids hj hl]
  scalar := by
    intro name v hmem hv
    obtain ⟨j, hj, hl⟩ := List.mem_map.mp hmem
    have hsettled := Tree.settled_leafAt_normalize ht j
    rw [hl] at hsettled
    cases hsettled with
    | collector hkind => cases hv
    | placeholder hkind =>
      rw [get?_of_placeholder ht hw hids htree known leaves hj hl, wordsFor_pairs ht hw hids hj hl]
      -- the slot is met at most once, so at most one word was handed to it
      have hlen : (handedTo j pairs).length ≤ 1 :=
        (length_handedTo_le hids j).trans (Tree.count_le_one_of_placeholder ht hl hw)
      match hhanded : handedTo j pairs with
      | [] => exact Or.inl ⟨rfl, rfl⟩
      | [w] => exact Or.inr ⟨w, rfl, rfl⟩
      | _ :: _ :: _ =>
        rw [hhanded] at hlen
        simp at hlen

end Pairing

namespace Interface

/-- The tree of an interface is the normal form of a tree that was read. -/
theorem exists_read_of_ofHelp {doc : String} {settings : Settings} {i : Interface}
    (h : ofHelp doc settings = .ok i) : ∃ t : Tree, t.Read ∧ i.tree = t.normalize := by
  unfold ofHelp at h
  split at h
  · cases h
  · simp only at h
    split at h
    · cases h
    · next t hparsed =>
      obtain rfl := Except.ok.inj h
      exact ⟨t, Tree.read_of_parsePattern hparsed, rfl⟩

/-- An invocation that yields bindings was read, and its leaves were matched completely. -/
theorem exists_match_of_parse {i : Interface} {words : List String} {b : Bindings}
    (h : i.parse words = .ok b) :
    ∃ leaves, (readInvocation i.settings.mode i.options words).outcome = .ok leaves ∧
      (i.tree.matchLeaves leaves).matched = true ∧ (i.tree.matchLeaves leaves).left = [] ∧
      b = Bindings.empty.insertAll (i.assembled
        (readInvocation i.settings.mode i.options words).registry leaves
        (i.tree.matchLeaves leaves).collected) := by
  unfold parse at h
  simp only at h
  split at h
  · cases h
  · next leaves hleaves =>
    unfold bindLeaves at h
    split at h
    · cases h
    · simp only at h
      split at h
      · next hcomplete =>
        obtain ⟨hmatched, hleft⟩ := Matcher.isComplete_iff.mp hcomplete
        exact ⟨leaves, hleaves, hmatched, hleft, (Except.ok.inj h).symm⟩
      · cases h

/-- **No positional word is lost or overwritten.** Whenever an invocation yields bindings, each of its
positional words is handed to one argument or command of the pattern, and the bindings report it: a
command is true exactly if it got its word, an argument that collects has all its words in order, and
any other argument has the one word it got or none. -/
theorem exists_handout_of_parse {doc : String} {settings : Settings} {i : Interface}
    (hi : ofHelp doc settings = .ok i) {words : List String} {b : Bindings}
    (hb : i.parse words = .ok b) :
    ∃ leaves, (readInvocation i.settings.mode i.options words).outcome = .ok leaves ∧
      ∃ pairs, Handout i.tree (positionals leaves) b pairs := by
  obtain ⟨t, ht, htree⟩ := exists_read_of_ofHelp hi
  obtain ⟨leaves, hleaves, hmatched, hleft, rfl⟩ := exists_match_of_parse hb
  refine ⟨leaves, hleaves, ?_⟩
  rw [htree] at hmatched hleft ⊢
  -- a word of the pattern leads through the match
  obtain ⟨w, hw, hrun⟩ :=
    t.normalize.root.follows_matcher t.normalize.leafAt ⟨leaves, []⟩ hmatched
  -- and hands out the words
  obtain ⟨pairs, hids, haccepts, hwords, hcollected⟩ :=
    exists_pairs_of_chain? t.normalize.leafAt (given_of_readInvocation hleaves) hrun
  have hall : positionals leaves = pairs.map Prod.snd := by
    have hnone : positionals (t.normalize.matchLeaves leaves).left = [] := by rw [hleft]; rfl
    rw [← List.append_nil (pairs.map Prod.snd), ← hnone]
    exact hwords
  have hbound : (t.normalize.matchLeaves leaves).collected =
      recordAll t.normalize.leafAt pairs [] := hcollected
  rw [hall, hbound]
  exact ⟨_, handout_of_pairs ht hw hids htree _ leaves haccepts⟩

/-- The interface of `m (to|cc) [N] F F...`: the argument `F` collects, `N` does not. -/
def mailer : Interface :=
  { doc := "usage: m (to|cc) [N] F F..."
    usage := "usage: m (to|cc) [N] F F..."
    options := []
    tree := ⟨[.keyword "to", .keyword "cc", .placeholder "N", .argument (some "F") (.list [])],
      .required [.required [.either [.leaf 0, .leaf 1]], .optional [.leaf 2], .leaf 3,
        .oneOrMore (.leaf 3)]⟩
    settings := .default }

theorem exists_handout_of_mailer :
    let b : Bindings :=
      ⟨[("to", .bool true), ("cc", .bool false), ("N", .str "a"), ("F", .list ["-", "b"])]⟩
    ofHelp "usage: m (to|cc) [N] F F..." .default = .ok mailer ∧
      mailer.parse ["to", "a", "-", "b"] = .ok b ∧
      ∃ leaves, (readInvocation mailer.settings.mode mailer.options ["to", "a", "-", "b"]).outcome =
          .ok leaves ∧
        ∃ pairs, Handout mailer.tree (positionals leaves) b pairs := by
  intro b
  have hi : ofHelp "usage: m (to|cc) [N] F F..." .default = .ok mailer := by cbv
  have hb : mailer.parse ["to", "a", "-", "b"] = .ok b := by cbv
  exact ⟨hi, hb, exists_handout_of_parse hi hb⟩

end Interface

end Synopsis
