import Synopsis.Invocation
import Synopsis.Matching.Pattern

/-!
# Positional words and option occurrences

What an invocation is read into is made of two kinds of leaves only, positional words and option
occurrences (`given_of_readInvocation`). Such leaves are told apart by two views: the words in order
(`positionals`) and the occurrences in order (`occurrences`). Each leaf of a pattern acts on one of
the views and leaves the other alone. An argument or a command takes the first word and records it;
an option or the shorthand for options takes occurrences and records nothing (`matcher_step`). What
recording a word changes is said apart from how it is done (`Leaf.Binds`). Run one after the other, the
leaves take the words in order, one for each argument or command met (`exists_pairs_of_chain?`).
-/

namespace Synopsis

/-! ## The two views -/

/-- The word that a positional leaf holds. -/
def Leaf.word? : Leaf → Option String
  | argument none (.str w) => some w
  | _ => none

/-- The option that a leaf is an occurrence of. -/
def Leaf.occurrence? : Leaf → Option Opt
  | option o => some o
  | _ => none

/-- The positional words among the leaves, in order. -/
def positionals (ls : List Leaf) : List String := ls.filterMap Leaf.word?

/-- The option occurrences among the leaves, in order. -/
def occurrences (ls : List Leaf) : List Opt := ls.filterMap Leaf.occurrence?

/-- A leaf as an invocation is read into: a positional word or an option occurrence. -/
inductive Leaf.Given : Leaf → Prop
  | word (w : String) : Given (.positional w)
  | occurrence (o : Opt) : Given (.option o)

@[simp] theorem positionals_nil : positionals [] = [] := rfl

@[simp] theorem positionals_positional (w : String) (ls : List Leaf) :
    positionals (.positional w :: ls) = w :: positionals ls := rfl

@[simp] theorem positionals_option (o : Opt) (ls : List Leaf) :
    positionals (.option o :: ls) = positionals ls := rfl

@[simp] theorem occurrences_nil : occurrences [] = [] := rfl

@[simp] theorem occurrences_positional (w : String) (ls : List Leaf) :
    occurrences (.positional w :: ls) = occurrences ls := rfl

@[simp] theorem occurrences_option (o : Opt) (ls : List Leaf) :
    occurrences (.option o :: ls) = o :: occurrences ls := rfl

/-- Given leaves that show neither a word nor an occurrence are none at all. -/
theorem eq_nil_iff_views {ls : List Leaf} (h : ∀ l ∈ ls, l.Given) :
    ls = [] ↔ positionals ls = [] ∧ occurrences ls = [] := by
  cases ls with
  | nil => simp
  | cons l ls => cases h l List.mem_cons_self <;> simp

/-- Each given leaf shows in one of the views. -/
theorem length_eq_views {ls : List Leaf} (h : ∀ l ∈ ls, l.Given) :
    ls.length = (positionals ls).length + (occurrences ls).length := by
  induction ls with
  | nil => rfl
  | cons l ls ih =>
    have hls := ih fun m hm => h m (List.mem_cons_of_mem _ hm)
    cases h l List.mem_cons_self with
    | word w =>
      rw [positionals_positional, occurrences_positional, List.length_cons, List.length_cons]
      omega
    | occurrence o =>
      rw [positionals_option, occurrences_option, List.length_cons, List.length_cons]
      omega

theorem mem_occurrences {ls : List Leaf} {o : Opt} :
    o ∈ occurrences ls ↔ Leaf.option o ∈ ls := by
  simp only [occurrences, List.mem_filterMap]
  constructor
  · rintro ⟨l, hl, ho⟩
    cases l with
    | option p => rwa [← Option.some.inj ho]
    | argument n v => cases ho
    | command n g => cases ho
    | anyOptions => cases ho
  · intro ho
    exact ⟨_, ho, rfl⟩

/-! ## What an invocation is read into -/

theorem given_append_options {os : List Opt} {ls : List Leaf} (h : ∀ l ∈ ls, l.Given) :
    ∀ l ∈ os.map Leaf.option ++ ls, l.Given := by
  intro l hl
  rcases List.mem_append.mp hl with hl | hl
  · obtain ⟨o, _, rfl⟩ := List.mem_map.mp hl
    exact .occurrence o
  · exact h l hl

theorem outcome_precededBy {ls leaves : List Leaf} {i : Invocation}
    (h : (i.precededBy ls).outcome = .ok leaves) :
    ∃ rest, i.outcome = .ok rest ∧ leaves = ls ++ rest := by
  unfold Invocation.precededBy at h
  cases hi : i.outcome with
  | error fault =>
    rw [hi] at h
    cases h
  | ok rest =>
    rw [hi] at h
    exact ⟨rest, rfl, (Except.ok.inj h).symm⟩

/-- An invocation is read into positional words and option occurrences. -/
theorem given_of_readInvocation {mode : Mode} {registry : Registry} {words : List String}
    {leaves : List Leaf} (h : (readInvocation mode registry words).outcome = .ok leaves) :
    ∀ l ∈ leaves, l.Given := by
  fun_induction readInvocation mode registry words generalizing leaves with
  | case1 =>
    obtain rfl := Except.ok.inj h
    intro l hl
    cases hl
  | case2 registry word rest hkind =>
    obtain rfl := Except.ok.inj h
    intro l hl
    obtain ⟨w, _, rfl⟩ := List.mem_map.mp hl
    exact .word w
  | case3 registry word rest hkind reading os hos =>
    rename_i ih
    obtain ⟨ls, hls, rfl⟩ := outcome_precededBy h
    exact given_append_options (ih hls)
  | case4 => cases h
  | case5 registry word rest hkind reading os hos =>
    rename_i ih
    obtain ⟨ls, hls, rfl⟩ := outcome_precededBy h
    exact given_append_options (ih hls)
  | case6 => cases h
  | case7 registry word rest hkind ih =>
    obtain ⟨ls, hls, rfl⟩ := outcome_precededBy h
    intro l hl
    rcases List.mem_cons.mp hl with rfl | hl
    · exact .word word
    · exact ih hls l hl

/-! ## Taking the first word -/

theorem isPositional_of_ne {l : Leaf} (h : ∀ v, l ≠ .argument none v) : l.isPositional = false := by
  unfold Leaf.isPositional
  split
  · exact absurd rfl (h _)
  · rfl

/-- The leaf taken is cut out where it stands, and no positional leaf stands before it. -/
theorem exists_split_of_takePositional? {ls rest : List Leaf} {v : Value}
    (h : takePositional? ls = some (v, rest)) :
    ∃ before after, ls = before ++ .argument none v :: after ∧ rest = before ++ after ∧
      ∀ l ∈ before, l.isPositional = false := by
  fun_induction takePositional? ls generalizing rest with
  | case1 => cases h
  | case2 u ls =>
    obtain ⟨rfl, rfl⟩ := Prod.mk.inj (Option.some.inj h)
    exact ⟨[], ls, rfl, rfl, List.forall_mem_nil _⟩
  | case3 l ls hl ih =>
    obtain ⟨⟨u, tail⟩, htail, heq⟩ := Option.map_eq_some_iff.mp h
    obtain ⟨rfl, rfl⟩ := Prod.mk.inj heq
    obtain ⟨before, after, rfl, rfl, hbefore⟩ := ih htail
    exact ⟨l :: before, after, rfl, rfl,
      List.forall_mem_cons.mpr ⟨isPositional_of_ne hl, hbefore⟩⟩

theorem filter_isPositional_split {before : List Leaf} (h : ∀ l ∈ before, l.isPositional = false)
    (v : Value) (after : List Leaf) :
    (before ++ .argument none v :: after).filter Leaf.isPositional =
      .argument none v :: (before ++ after).filter Leaf.isPositional := by
  have hnone : before.filter Leaf.isPositional = [] := by
    rw [List.filter_eq_nil_iff]
    intro l hl
    exact Bool.eq_false_iff.mp (h l hl)
  rw [List.filter_append, List.filter_append, hnone]
  rfl

theorem takePositional?_option (o : Opt) (ls : List Leaf) :
    takePositional? (.option o :: ls) =
      (takePositional? ls).map fun r => (r.1, .option o :: r.2) := rfl

theorem takePositional?_eq_none {ls : List Leaf} (h : ∀ l ∈ ls, l.Given)
    (hwords : positionals ls = []) : takePositional? ls = none := by
  induction ls with
  | nil => rfl
  | cons l ls ih =>
    cases h l List.mem_cons_self with
    | word w => cases hwords
    | occurrence o =>
      rw [takePositional?_option, ih (fun m hm => h m (List.mem_cons_of_mem _ hm)) hwords,
        Option.map_none]

/-- If there is a word, the first one is taken; the other words and all occurrences stay. -/
theorem takePositional?_eq_some {ls : List Leaf} (h : ∀ l ∈ ls, l.Given) {w : String}
    {ws : List String} (hwords : positionals ls = w :: ws) :
    ∃ rest, takePositional? ls = some (.str w, rest) ∧ (∀ l ∈ rest, l.Given) ∧
      positionals rest = ws ∧ occurrences rest = occurrences ls := by
  induction ls with
  | nil => cases hwords
  | cons l ls ih =>
    have hls : ∀ m ∈ ls, m.Given := fun m hm => h m (List.mem_cons_of_mem _ hm)
    cases h l List.mem_cons_self with
    | word v =>
      obtain ⟨rfl, rfl⟩ := List.cons.inj hwords
      exact ⟨ls, rfl, hls, rfl, rfl⟩
    | occurrence o =>
      obtain ⟨rest, htake, hgiven, hpos, hocc⟩ := ih hls hwords
      refine ⟨.option o :: rest, ?_, ?_, hpos, ?_⟩
      · rw [takePositional?_option, htake, Option.map_some]
      · intro m hm
        rcases List.mem_cons.mp hm with rfl | hm
        · exact .occurrence o
        · exact hgiven m hm
      · rw [occurrences_option, occurrences_option, hocc]

/-! ## Taking occurrences -/

theorem Leaf.isOccurrenceOf_of_not_option (o : Opt) :
    ∀ l : Leaf, l.isOption = false → l.isOccurrenceOf o = false := by
  intro l hl
  cases l with
  | option p => cases hl
  | argument name v => rfl
  | command name given => rfl
  | anyOptions => rfl

/-- A test that only options pass leaves the words alone. -/
theorem positionals_filter_not {test : Leaf → Bool} (htest : ∀ w, test (.positional w) = false)
    {ls : List Leaf} (h : ∀ l ∈ ls, l.Given) :
    positionals (ls.filter fun l => !test l) = positionals ls := by
  induction ls with
  | nil => rfl
  | cons l ls ih =>
    have hls := ih fun m hm => h m (List.mem_cons_of_mem _ hm)
    cases h l List.mem_cons_self with
    | word w =>
      rw [List.filter_cons_of_pos (by rw [htest w]; rfl), positionals_positional, hls,
        positionals_positional]
    | occurrence o =>
      rw [positionals_option, List.filter_cons]
      split
      · rw [positionals_option, hls]
      · exact hls

theorem occurrences_filter_not (test : Leaf → Bool) (ls : List Leaf) :
    occurrences (ls.filter fun l => !test l) =
      (occurrences ls).filter fun o => !test (.option o) := by
  unfold occurrences
  rw [List.filterMap_filter, List.filter_filterMap]
  congr 1
  funext l
  cases l with
  | option o => simp [Leaf.occurrence?, Option.filter]
  | argument n v => simp [Leaf.occurrence?]
  | command n g => simp [Leaf.occurrence?]
  | anyOptions => simp [Leaf.occurrence?]

theorem given_filter {test : Leaf → Bool} {ls : List Leaf} (h : ∀ l ∈ ls, l.Given) :
    ∀ l ∈ ls.filter test, l.Given := fun l hl => h l (List.mem_filter.mp hl).1

/-! ## The change that one word makes to the bindings -/

/-- **`l.Binds w bound bound'`**: the change that the argument or command `l` makes to the bindings
when it takes the word `w`. All other bindings stay as they are and where they are. -/
inductive Leaf.Binds : Leaf → String → List Leaf → List Leaf → Prop
  /-- An argument that does not collect has the word as its text, at the end. -/
  | text {name : Option String} {v : Value} (h : v.isList = false) (w : String)
      (bound : List Leaf) :
      Binds (.argument name v) w bound (bound ++ [.argument name (.str w)])
  /-- A command that was called by its name is true, at the end. -/
  | command (w : String) (given : Bool) (bound : List Leaf) :
      Binds (.command w given) w bound (bound ++ [.command w true])
  /-- An argument that collects has the word put to the first list of its name. -/
  | collect {name : Option String} (items : List String) (before : List Leaf)
      (h : ∀ us, .argument name (.list us) ∉ before) (ws : List String) (after : List Leaf)
      (w : String) :
      Binds (.argument name (.list items)) w (before ++ .argument name (.list ws) :: after)
        (before ++ .argument name (.list (ws ++ [w])) :: after)
  /-- Where there is no list of its name yet, the argument starts one at the end. -/
  | start {name : Option String} (items : List String) (bound : List Leaf)
      (h : ∀ us, .argument name (.list us) ∉ bound) (w : String) :
      Binds (.argument name (.list items)) w bound (bound ++ [.argument name (.list [w])])

/-- One more binding in front that is no list of the name changes nothing for a collector. -/
theorem Leaf.Binds.cons {name : Option String} {items : List String} {w : String}
    {bound bound' : List Leaf} (h : (Leaf.argument name (.list items)).Binds w bound bound')
    {l : Leaf} (hl : ∀ us, l ≠ .argument name (.list us)) :
    (Leaf.argument name (.list items)).Binds w (l :: bound) (l :: bound') := by
  have hfront : ∀ {ls : List Leaf}, (∀ us, .argument name (.list us) ∉ ls) →
      ∀ us, .argument name (.list us) ∉ l :: ls := by
    intro ls hls us hmem
    rcases List.mem_cons.mp hmem with heq | hmem
    · exact hl us heq.symm
    · exact hls us hmem
  cases h with
  | text hscalar => cases hscalar
  | collect items before hbefore ws after w =>
    exact .collect items (l :: before) (hfront hbefore) ws after w
  | start items bound hbound w => exact .start items (l :: bound) (hfront hbound) w

theorem binds_appendTo (name : Option String) (items : List String) (w : String)
    (bound : List Leaf) :
    (Leaf.argument name (.list items)).Binds w bound (appendTo name w bound) := by
  fun_induction appendTo name w bound with
  | case1 => exact .start items [] (fun _ => List.not_mem_nil) w
  | case2 ws ls => exact .collect items [] (fun _ => List.not_mem_nil) ws ls w
  | case3 n ws ls hne ih =>
    refine ih.cons ?_
    intro us heq
    exact hne (Leaf.argument.inj heq).1
  | case4 l ls hlist ih =>
    refine ih.cons ?_
    intro us heq
    exact hlist name us heq

theorem binds_bindWord (name : Option String) (v : Value) (w : String) (bound : List Leaf) :
    (Leaf.argument name v).Binds w bound (bindWord name v w bound) := by
  unfold bindWord
  split
  · next hlist =>
    obtain ⟨items, rfl⟩ := (Value.isList_iff v).mp hlist
    exact binds_appendTo name items w bound
  · next hscalar => exact .text (Bool.eq_false_iff.mpr hscalar) w bound

/-! ## The step of a leaf -/

/-- The word is one that the leaf can take: any word for an argument, its name for a command. -/
def Leaf.Accepts : Leaf → String → Prop
  | argument _ _, _ => True
  | command name _, w => w = name
  | option _, _ => False
  | anyOptions, _ => False

/-- The bindings after the leaf has taken the word. -/
def Leaf.record : Leaf → String → List Leaf → List Leaf
  | argument name value, w, bound => bindWord name value w bound
  | command name _, _, bound => bound ++ [command name true]
  | option _, _, bound => bound
  | anyOptions, _, bound => bound

/-- An argument or a command takes the first word if it accepts it, and records it. -/
theorem matcher_slot {l : Leaf} (hslot : l.isWordSlot = true) {s : MatchState}
    (h : ∀ m ∈ s.left, m.Given) {w : String} {ws : List String}
    (hwords : positionals s.left = w :: ws) (hw : l.Accepts w) :
    ∃ rest, l.matcher s = .success ⟨rest, l.record w s.collected⟩ ∧ (∀ m ∈ rest, m.Given) ∧
      positionals rest = ws ∧ occurrences rest = occurrences s.left := by
  obtain ⟨rest, htake, hrest⟩ := takePositional?_eq_some h hwords
  refine ⟨rest, ?_, hrest⟩
  cases l with
  | argument name value =>
    show matchArgument name value s = _
    rw [matchArgument, htake]
    rfl
  | command name given =>
    obtain rfl : w = name := hw
    show matchCommand w s = _
    rw [matchCommand, htake]
    exact if_pos rfl
  | option o => cases hslot
  | anyOptions => cases hslot

/-- An argument or a command fails if there is no word, or the first is not one that it accepts. -/
theorem matcher_slot_failure {l : Leaf} (hslot : l.isWordSlot = true) {s : MatchState}
    (h : ∀ m ∈ s.left, m.Given)
    (hwords : ∀ w ws, positionals s.left = w :: ws → ¬ l.Accepts w) :
    l.matcher s = .failure s := by
  cases l with
  | argument name value =>
    show matchArgument name value s = _
    have hnone : positionals s.left = [] := by
      cases hpos : positionals s.left with
      | nil => rfl
      | cons w ws => exact absurd trivial (hwords w ws hpos)
    rw [matchArgument, takePositional?_eq_none h hnone]
  | command name given =>
    show matchCommand name s = _
    cases hpos : positionals s.left with
    | nil => rw [matchCommand, takePositional?_eq_none h hpos]
    | cons w ws =>
      obtain ⟨rest, htake, -⟩ := takePositional?_eq_some h hpos
      have hne : Value.str w ≠ .str name := fun heq => hwords w ws hpos (Value.str.inj heq)
      rw [matchCommand, htake]
      exact if_neg hne
  | option o => cases hslot
  | anyOptions => cases hslot

/-- **The step of a leaf.** A leaf that fits on given leaves leaves given leaves. An argument or a
command has taken the first word and recorded it, and no occurrence; any other leaf has left words and
bindings alone. -/
theorem matcher_step {l : Leaf} {s : MatchState} (h : ∀ m ∈ s.left, m.Given)
    (hfit : (l.matcher s).matched = true) :
    (∀ m ∈ (l.matcher s).left, m.Given) ∧
      if l.isWordSlot then
        ∃ w, l.Accepts w ∧ positionals s.left = w :: positionals (l.matcher s).left ∧
          occurrences (l.matcher s).left = occurrences s.left ∧
          (l.matcher s).collected = l.record w s.collected
      else
        positionals (l.matcher s).left = positionals s.left ∧
          (l.matcher s).collected = s.collected := by
  by_cases hslot : l.isWordSlot = true
  · rw [if_pos hslot]
    by_cases hwords : ∃ w ws, positionals s.left = w :: ws ∧ l.Accepts w
    · obtain ⟨w, ws, hpos, hw⟩ := hwords
      obtain ⟨rest, heq, hgiven, hrest, hocc⟩ := matcher_slot hslot h hpos hw
      rw [heq]
      refine ⟨hgiven, w, hw, ?_, hocc, rfl⟩
      show positionals s.left = w :: positionals rest
      rw [hpos, hrest]
    · have hfailure : l.matcher s = .failure s := by
        apply matcher_slot_failure hslot h
        intro w ws hpos hw
        exact hwords ⟨w, ws, hpos, hw⟩
      rw [hfailure] at hfit
      cases hfit
  · rw [if_neg hslot]
    cases l with
    | argument name value => exact absurd rfl hslot
    | command name given => exact absurd rfl hslot
    | option o => exact ⟨given_filter h, positionals_filter_not (fun _ => rfl) h, rfl⟩
    | anyOptions => exact ⟨given_filter h, positionals_filter_not (fun _ => rfl) h, rfl⟩

/-! ## A run of leaves -/

/-- The bindings after leaves have taken words, one after the other. -/
def recordAll {α : Type} (f : α → Leaf) (pairs : List (α × String)) (bound : List Leaf) :
    List Leaf :=
  pairs.foldl (fun bound e => (f e.1).record e.2 bound) bound

/-- **A run of leaves.** The arguments and commands of a run that fits take the words in order, one
each, and what they record is all that is bound. -/
theorem exists_pairs_of_chain? {α : Type} (f : α → Leaf) {w : List α} {s t : MatchState}
    (h : ∀ l ∈ s.left, l.Given)
    (hrun : Matcher.chain? (w.map fun a => (f a).matcher) s = some t) :
    ∃ pairs : List (α × String),
      pairs.map Prod.fst = w.filter (fun a => (f a).isWordSlot) ∧
      (∀ e ∈ pairs, (f e.1).Accepts e.2) ∧
      positionals s.left = pairs.map Prod.snd ++ positionals t.left ∧
      t.collected = recordAll f pairs s.collected := by
  induction w generalizing s with
  | nil =>
    obtain rfl := Option.some.inj hrun
    refine ⟨[], rfl, ?_, rfl, rfl⟩
    intro e he
    cases he
  | cons a w ih =>
    simp only [List.map_cons, Matcher.chain?] at hrun
    split at hrun
    · next hfit =>
      obtain ⟨hgiven, hstep⟩ := matcher_step h hfit
      obtain ⟨pairs, hids, haccepts, hwords, hcollected⟩ := ih hgiven hrun
      split at hstep
      · next hslot =>
        -- the leaf takes the first word: one more pair in front
        obtain ⟨v, hv, hfirst, -, hrecord⟩ := hstep
        refine ⟨(a, v) :: pairs, ?_, ?_, ?_, ?_⟩
        · rw [List.filter_cons, if_pos hslot, List.map_cons, hids]
        · intro e he
          rcases List.mem_cons.mp he with rfl | he
          · exact hv
          · exact haccepts e he
        · rw [hfirst, hwords]
          rfl
        · rw [hcollected, hrecord]
          rfl
      · next hslot =>
        obtain ⟨hsame, hcollected'⟩ := hstep
        refine ⟨pairs, ?_, haccepts, ?_, ?_⟩
        · rw [List.filter_cons, if_neg hslot, hids]
        · rw [← hsame, hwords]
        · rw [hcollected, hcollected']
    · cases hrun

end Synopsis
