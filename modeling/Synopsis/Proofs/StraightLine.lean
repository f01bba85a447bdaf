import Synopsis.Proofs.Choices
import Synopsis.Proofs.Positionals
import Mathlib.Data.List.Forall2

/-!
# The invocations that a straight usage accepts

A straight usage line has no groups in it but optional options and, after its other words, one
repeated argument. What it accepts can be said without running it: the words of an invocation are
those of the line in order (`FitsWords`), and its options are options of the line, among them all
that are required (`FitsOptions`). The interleaving of words and options does not matter.

A matcher takes the items one by one, and each item acts on both views of what is left (`Item.step`).
What the remaining items ask of the remaining leaves is what the line asks of all of them, less what
the first item does (`fitsWords_cons`, `fitsOptions_cons`). By induction a line takes every leaf
exactly if the leaves fit it (`exists_chain?_iff_fits`), and since a choice takes every leaf exactly
if an alternative does, a usage accepts what fits one of its lines.
-/

namespace Synopsis

/-! ## Items and lines -/

/-- An item of a straight usage line. -/
inductive Item where
  /-- An argument or a command: one word. -/
  | word (l : Leaf) (slot : l.isWordSlot = true)
  /-- An option that has to be given. -/
  | option (o : Opt)
  /-- A group of options, none of which has to be given. -/
  | options (os : List Opt)
  /-- A repeated argument: the words that are left, one at least. -/
  | rest (name : Option String) (value : Value)

namespace Item

/-- The item as a part of a pattern. -/
def pattern : Item → Pattern Leaf
  | word l _ => .leaf l
  | option o => .leaf (.option o)
  | options os => .optional (os.map fun o => .leaf (.option o))
  | rest name value => .oneOrMore (.leaf (.argument name value))

/-- The arguments and commands that take one word each. -/
def slots : Item → List Leaf
  | word l _ => [l]
  | _ => []

/-- The item is the repeated argument. -/
def isRest : Item → Bool
  | rest _ _ => true
  | _ => false

/-- The options that have to be given. -/
def required : Item → List Opt
  | option o => [o]
  | _ => []

/-- The options that may be given, the required ones included. -/
def allowed : Item → List Opt
  | option o => [o]
  | options os => os
  | _ => []

theorem mem_allowed_of_mem_required {item : Item} {o : Opt} (h : o ∈ item.required) :
    o ∈ item.allowed := by
  cases item with
  | option p => exact h
  | word l hslot => cases h
  | options os => cases h
  | rest name value => cases h

end Item

/-- A line as the grammar of straight usages has it. -/
structure Straight (items : List Item) : Prop where
  /-- After the repeated argument there is no other item that takes words. -/
  rest_last : items.Pairwise fun a b => a.isRest = true → b.slots = [] ∧ b.isRest = false
  /-- No two options of the line have the same names. -/
  distinct : (items.flatMap Item.allowed).Pairwise fun o p => o.sameNames p = false

theorem Straight.tail {item : Item} {items : List Item} (h : Straight (item :: items)) :
    Straight items := by
  obtain ⟨hrest, hdistinct⟩ := h
  rw [List.flatMap_cons] at hdistinct
  exact ⟨(List.pairwise_cons.mp hrest).2, (List.pairwise_append.mp hdistinct).2.1⟩

/-! ## What a line asks for -/

/-- The words are those of the line: one for each argument or command, in order, and a surplus
exactly if the line ends in a repeated argument. -/
def FitsWords (items : List Item) (ws : List String) : Prop :=
  ∃ front surplus, ws = front ++ surplus ∧
    List.Forall₂ Leaf.Accepts (items.flatMap Item.slots) front ∧
    (surplus ≠ [] ↔ ∃ item ∈ items, item.isRest = true)

/-- Each required option of the line is given, and each option given is one of the line. -/
def FitsOptions (items : List Item) (os : List Opt) : Prop :=
  (∀ o ∈ items.flatMap Item.required, ∃ p ∈ os, p.sameNames o = true) ∧
    ∀ p ∈ os, ∃ o ∈ items.flatMap Item.allowed, p.sameNames o = true

/-- The leaves of an invocation fit the line. -/
def Fits (items : List Item) (leaves : List Leaf) : Prop :=
  FitsWords items (positionals leaves) ∧ FitsOptions items (occurrences leaves)

theorem fitsWords_nil {ws : List String} : FitsWords [] ws ↔ ws = [] := by
  constructor
  · rintro ⟨front, surplus, rfl, hfront, hsurplus⟩
    cases hfront
    by_contra hne
    obtain ⟨item, hitem, -⟩ := hsurplus.mp hne
    cases hitem
  · rintro rfl
    exact ⟨[], [], rfl, .nil, by simp⟩

theorem fitsOptions_nil {os : List Opt} : FitsOptions [] os ↔ os = [] := by
  simp [FitsOptions, List.eq_nil_iff_forall_not_mem]

/-! ## What an item does to the views -/

namespace Item

/-- The words are enough for the item to fit. -/
def WordsReady : Item → List String → Prop
  | word l _, ws => ∃ w ∈ ws.head?, l.Accepts w
  | rest _ _, ws => ws ≠ []
  | _, _ => True

/-- The words that the item leaves. -/
def wordsAfter : Item → List String → List String
  | word _ _, ws => ws.tail
  | rest _ _, _ => []
  | _, ws => ws

/-- The options given are enough for the item to fit. -/
def OptionsReady (item : Item) (os : List Opt) : Prop :=
  ∀ o ∈ item.required, ∃ p ∈ os, p.sameNames o = true

/-- The options that the item leaves. -/
def optionsAfter (item : Item) (os : List Opt) : List Opt :=
  os.filter fun p => !item.allowed.any p.sameNames

end Item

/-- What a line asks of the words, it asks in part of its first item, and for the rest of what that
item leaves. -/
theorem fitsWords_cons {item : Item} {items : List Item} (h : Straight (item :: items))
    {ws : List String} :
    FitsWords (item :: items) ws ↔ item.WordsReady ws ∧ FitsWords items (item.wordsAfter ws) := by
  cases item with
  | word l hslot =>
    constructor
    · rintro ⟨front, surplus, rfl, hfront, hsurplus⟩
      cases hfront with
      | @cons _ w _ front hw hfront =>
        refine ⟨⟨w, rfl, hw⟩, front, surplus, rfl, hfront, ?_⟩
        simpa [Item.isRest] using hsurplus
    · rintro ⟨⟨w, hhead, hw⟩, front, surplus, htail, hfront, hsurplus⟩
      obtain ⟨ws, rfl⟩ := List.head?_eq_some_iff.mp hhead
      obtain rfl : ws = front ++ surplus := htail
      refine ⟨w :: front, surplus, rfl, .cons hw hfront, ?_⟩
      simpa [Item.isRest] using hsurplus
  | option o => simp [FitsWords, Item.WordsReady, Item.wordsAfter, Item.slots, Item.isRest]
  | options os => simp [FitsWords, Item.WordsReady, Item.wordsAfter, Item.slots, Item.isRest]
  | rest name value =>
    -- nothing behind the repeated argument takes words
    have hlast : ∀ b ∈ items, b.slots = [] ∧ b.isRest = false := by
      intro b hb
      exact (List.pairwise_cons.mp h.rest_last).1 b hb rfl
    have hslots : items.flatMap Item.slots = [] :=
      List.flatMap_eq_nil_iff.mpr fun b hb => (hlast b hb).1
    have hrests : ¬ ∃ b ∈ items, b.isRest = true := by
      rintro ⟨b, hb, hrest⟩
      rw [(hlast b hb).2] at hrest
      cases hrest
    constructor
    · rintro ⟨front, surplus, rfl, hfront, hsurplus⟩
      have hne : surplus ≠ [] := hsurplus.mpr ⟨_, List.mem_cons_self, rfl⟩
      refine ⟨?_, [], [], rfl, ?_, ?_⟩
      · show front ++ surplus ≠ []
        simp [hne]
      · rw [hslots]
        exact .nil
      · simpa using hrests
    · rintro ⟨hne, -⟩
      refine ⟨[], ws, rfl, ?_, ?_⟩
      · rw [List.flatMap_cons, hslots]
        exact .nil
      · exact ⟨fun _ => ⟨_, List.mem_cons_self, rfl⟩, fun _ => hne⟩

/-- What a line asks of the options, it asks in part of its first item, and for the rest of what that
item leaves: the options of the others are not among those that it takes. -/
theorem fitsOptions_cons {item : Item} {items : List Item} (h : Straight (item :: items))
    {os : List Opt} :
    FitsOptions (item :: items) os ↔
      item.OptionsReady os ∧ FitsOptions items (item.optionsAfter os) := by
  have hdistinct := h.distinct
  rw [List.flatMap_cons] at hdistinct
  have hapart := (List.pairwise_append.mp hdistinct).2.2
  have hafter : ∀ p, p ∈ item.optionsAfter os ↔
      p ∈ os ∧ ∀ o ∈ item.allowed, p.sameNames o = false := by
    intro p
    simp [Item.optionsAfter]
  simp only [FitsOptions, List.flatMap_cons, List.forall_mem_append]
  constructor
  · rintro ⟨⟨hfirst, hothers⟩, hallowed⟩
    refine ⟨hfirst, ?_, ?_⟩
    · intro o ho
      obtain ⟨p, hp, hpo⟩ := hothers o ho
      refine ⟨p, (hafter p).mpr ⟨hp, ?_⟩, hpo⟩
      -- an option of the first item has other names than `o`, hence other names than `p`
      intro q hq
      obtain ⟨item', hitem', ho⟩ := List.mem_flatMap.mp ho
      have hqo := hapart q hq o
        (List.mem_flatMap.mpr ⟨item', hitem', Item.mem_allowed_of_mem_required ho⟩)
      rw [← hqo, Bool.eq_iff_iff, Opt.sameNames_iff, Opt.sameNames_iff]
      obtain ⟨hshort, hlong⟩ := (Opt.sameNames_iff p o).mp hpo
      rw [hshort, hlong]
      exact ⟨fun hs => ⟨hs.1.symm, hs.2.symm⟩, fun hs => ⟨hs.1.symm, hs.2.symm⟩⟩
    · intro p hp
      obtain ⟨hp, hnone⟩ := (hafter p).mp hp
      obtain ⟨o, ho, hpo⟩ := hallowed p hp
      rcases List.mem_append.mp ho with ho | ho
      · rw [hnone o ho] at hpo
        cases hpo
      · exact ⟨o, ho, hpo⟩
  · rintro ⟨hfirst, hothers, hallowed⟩
    refine ⟨⟨hfirst, ?_⟩, ?_⟩
    · intro o ho
      obtain ⟨p, hp, hpo⟩ := hothers o ho
      exact ⟨p, ((hafter p).mp hp).1, hpo⟩
    · intro p hp
      by_cases hown : ∃ o ∈ item.allowed, p.sameNames o = true
      · obtain ⟨o, ho, hpo⟩ := hown
        exact ⟨o, List.mem_append_left _ ho, hpo⟩
      · have hleft : p ∈ item.optionsAfter os := by
          refine (hafter p).mpr ⟨hp, ?_⟩
          intro o ho
          exact Bool.eq_false_iff.mpr fun hpo => hown ⟨o, ho, hpo⟩
        obtain ⟨o, ho, hpo⟩ := hallowed p hleft
        exact ⟨o, List.mem_append_right _ ho, hpo⟩

/-! ## The step of an item -/

/-- Given leaves with these words and these occurrences. -/
structure Shows (ls : List Leaf) (ws : List String) (os : List Opt) : Prop where
  /-- There are only words and occurrences. -/
  given : ∀ l ∈ ls, l.Given
  /-- The words in order. -/
  words : positionals ls = ws
  /-- The occurrences in order. -/
  options : occurrences ls = os

theorem matched_slot_iff {l : Leaf} (hslot : l.isWordSlot = true) {s : MatchState}
    (h : ∀ m ∈ s.left, m.Given) :
    (l.matcher s).matched = true ↔ ∃ w ∈ (positionals s.left).head?, l.Accepts w := by
  constructor
  · intro hfit
    obtain ⟨-, hstep⟩ := matcher_step h hfit
    rw [if_pos hslot] at hstep
    obtain ⟨w, hw, hpos, -, -⟩ := hstep
    refine ⟨w, ?_, hw⟩
    rw [hpos]
    rfl
  · rintro ⟨w, hhead, hw⟩
    obtain ⟨ws, hpos⟩ := List.head?_eq_some_iff.mp hhead
    obtain ⟨rest, heq, -⟩ := matcher_slot hslot h hpos hw
    rw [heq]
    rfl

/-- An argument or a command that fits leaves all words but the first, and all options. -/
theorem shows_slot {l : Leaf} (hslot : l.isWordSlot = true) {s : MatchState}
    (h : ∀ m ∈ s.left, m.Given) (hfit : (l.matcher s).matched = true) :
    Shows (l.matcher s).left (positionals s.left).tail (occurrences s.left) := by
  obtain ⟨hgiven, hstep⟩ := matcher_step h hfit
  rw [if_pos hslot] at hstep
  obtain ⟨w, -, hpos, hocc, -⟩ := hstep
  refine ⟨hgiven, ?_, hocc⟩
  rw [hpos]
  rfl

/-- Taking all leaves of a kind, if there are any, leaves those of the other kinds. -/
theorem stateOr_matchAllOf (test : Leaf → Bool) (s : MatchState) :
    (matchAllOf test s).stateOr s = ⟨s.left.filter fun l => !test l, s.collected⟩ := by
  unfold Outcome.stateOr
  split
  · rfl
  · next hnone =>
    have hkeep : s.left.filter (fun l => !test l) = s.left := by
      apply List.filter_eq_self.mpr
      intro l hl
      have hl : test l ≠ true := fun htest => hnone (List.any_eq_true.mpr ⟨l, hl, htest⟩)
      rw [Bool.eq_false_iff.mpr hl]
      rfl
    rw [hkeep]

/-- A group of optional options takes all occurrences of all its options. -/
theorem passing_options (os : List Opt) (s : MatchState) :
    Matcher.passing (os.map fun o => (Leaf.option o).matcher) s =
      ⟨s.left.filter fun l => !os.any fun o => l.isOccurrenceOf o, s.collected⟩ := by
  induction os generalizing s with
  | nil => simp [Matcher.passing]
  | cons o os ih =>
    rw [List.map_cons, Matcher.passing]
    show Matcher.passing _ ((matchAllOf (Leaf.isOccurrenceOf o) s).stateOr s) = _
    rw [stateOr_matchAllOf, ih, List.filter_filter]
    simp [Bool.and_comm]

/-- What is left once all occurrences of some options are taken. -/
theorem shows_filter_options (os : List Opt) {ls : List Leaf} (h : ∀ l ∈ ls, l.Given) :
    Shows (ls.filter fun l => !os.any fun o => l.isOccurrenceOf o) (positionals ls)
      ((occurrences ls).filter fun p => !os.any p.sameNames) where
  given := given_filter h
  words := positionals_filter_not (fun w => by simp [Leaf.positional, Leaf.isOccurrenceOf]) h
  options := occurrences_filter_not _ _

/-- A repeated argument takes all words, one a round, and stops when there are none. -/
theorem shows_exhaust_argument (name : Option String) (value : Value) {s : MatchState}
    (h : ∀ l ∈ s.left, l.Given) :
    Shows (Matcher.exhaust (Leaf.argument name value).matcher s).left [] (occurrences s.left) := by
  generalize hws : positionals s.left = ws
  induction ws generalizing s with
  | nil =>
    have hfailure : (Leaf.argument name value).matcher s = .failure s := by
      apply matcher_slot_failure rfl h
      rw [hws]
      intro w ws hcons
      cases hcons
    rw [Matcher.exhaust, hfailure]
    exact ⟨h, hws, rfl⟩
  | cons w ws ih =>
    have hround : ((Leaf.argument name value).matcher s).matched = true := by
      rw [matched_slot_iff rfl h, hws]
      exact ⟨w, rfl, trivial⟩
    obtain ⟨hgiven, hwords, hoptions⟩ := shows_slot rfl h hround
    rw [hws, List.tail_cons] at hwords
    -- a round takes a leaf, so the loop goes on
    have hlt : ((Leaf.argument name value).matcher s).left.length < s.left.length := by
      rw [length_eq_views h, length_eq_views hgiven, hws, hwords, hoptions, List.length_cons]
      omega
    rw [Matcher.exhaust_of_lt hround hlt, ← hoptions]
    exact ih hgiven hwords

/-- A repetition fits exactly if its first round does. -/
theorem Matcher.matched_many (m : Matcher) (s : MatchState) :
    (many m s).matched = (m s).matched := by
  unfold many
  split
  · next hfit => exact hfit.symm
  · next hfit => exact (Bool.eq_false_iff.mpr hfit).symm

theorem any_isOccurrenceOf_iff {o : Opt} {ls : List Leaf} :
    ls.any (Leaf.isOccurrenceOf o) = true ↔ ∃ p ∈ occurrences ls, p.sameNames o = true := by
  rw [List.any_eq_true]
  constructor
  · rintro ⟨l, hl, htest⟩
    cases l with
    | option p => exact ⟨p, mem_occurrences.mpr hl, htest⟩
    | argument name value => cases htest
    | command name given => cases htest
    | anyOptions => cases htest
  · rintro ⟨p, hp, hpo⟩
    exact ⟨.option p, mem_occurrences.mp hp, hpo⟩

namespace Item

/-- An item fits exactly if words and options are ready for it. -/
theorem matched_iff (item : Item) {s : MatchState} (h : ∀ l ∈ s.left, l.Given) :
    (item.pattern.matcher s).matched = true ↔
      item.WordsReady (positionals s.left) ∧ item.OptionsReady (occurrences s.left) := by
  cases item with
  | word l hslot =>
    show (l.matcher s).matched = true ↔ _
    rw [matched_slot_iff hslot h]
    simp [WordsReady, OptionsReady, required]
  | option o =>
    show s.left.any (Leaf.isOccurrenceOf o) = true ↔ _
    rw [any_isOccurrenceOf_iff]
    simp [WordsReady, OptionsReady, required]
  | options os =>
    show true = true ↔ _
    simp [WordsReady, OptionsReady, required]
  | rest name value =>
    show (Matcher.many (Leaf.argument name value).matcher s).matched = true ↔ _
    rw [Matcher.matched_many, matched_slot_iff rfl h]
    cases positionals s.left <;> simp [WordsReady, OptionsReady, required, Leaf.Accepts]

theorem optionsAfter_of_allowed_eq_nil {item : Item} (h : item.allowed = []) (os : List Opt) :
    item.optionsAfter os = os := by
  unfold optionsAfter
  simp [h]

/-- **The step of an item.** An item that fits has done its part to the words and to the options. -/
theorem step (item : Item) {s : MatchState} (h : ∀ l ∈ s.left, l.Given)
    (hfit : (item.pattern.matcher s).matched = true) :
    Shows (item.pattern.matcher s).left (item.wordsAfter (positionals s.left))
      (item.optionsAfter (occurrences s.left)) := by
  cases item with
  | word l hslot =>
    rw [optionsAfter_of_allowed_eq_nil rfl]
    exact shows_slot hslot h hfit
  | option o =>
    have hshows := shows_filter_options [o] h
    simp only [List.any_cons, List.any_nil, Bool.or_false] at hshows
    show Shows (s.left.filter fun l => !l.isOccurrenceOf o) _ _
    simpa [wordsAfter, optionsAfter, allowed] using hshows
  | options os =>
    show Shows (Matcher.passing (Pattern.matchers _) s).left _ _
    rw [Pattern.matchers_eq_map, List.map_map]
    show Shows (Matcher.passing (os.map fun o => (Leaf.option o).matcher) s).left _ _
    rw [passing_options]
    exact shows_filter_options os h
  | rest name value =>
    have hround : ((Leaf.argument name value).matcher s).matched = true := by
      rw [← Matcher.matched_many]
      exact hfit
    -- the first round takes a word, the others take what it leaves
    have hfirst := shows_slot rfl h hround
    show Shows (Matcher.many (Leaf.argument name value).matcher s).left _ _
    rw [Matcher.many_of_matched hround, optionsAfter_of_allowed_eq_nil rfl, ← hfirst.options]
    exact shows_exhaust_argument name value hfirst.given

end Item

/-! ## A line takes every leaf exactly if the leaves fit it -/

theorem exists_chain?_cons_iff {m : Matcher} {ms : List Matcher} {s : MatchState} :
    (∃ t, Matcher.chain? (m :: ms) s = some t ∧ t.left = []) ↔
      (m s).matched = true ∧
        ∃ t, Matcher.chain? ms (m s).toMatchState = some t ∧ t.left = [] := by
  by_cases hm : (m s).matched = true
  · simp [Matcher.chain?, hm]
  · simp [Matcher.chain?, hm]

/-- **The run of a line.** The items of a straight line, taken in order, take every leaf exactly if
the leaves fit the line. -/
theorem exists_chain?_iff_fits {items : List Item} (hs : Straight items) {s : MatchState}
    (h : ∀ l ∈ s.left, l.Given) :
    (∃ t, Matcher.chain? (items.map fun item => item.pattern.matcher) s = some t ∧ t.left = []) ↔
      Fits items s.left := by
  induction items generalizing s with
  | nil =>
    unfold Fits
    rw [fitsWords_nil, fitsOptions_nil, ← eq_nil_iff_views h]
    simp [Matcher.chain?]
  | cons item items ih =>
    rw [List.map_cons, exists_chain?_cons_iff]
    unfold Fits
    rw [fitsWords_cons hs, fitsOptions_cons hs]
    -- the first item splits off; what it leaves is where the others start
    constructor
    · rintro ⟨hfit, hrun⟩
      obtain ⟨hgiven, hwords, hoptions⟩ := item.step h hfit
      obtain ⟨hwordsReady, hoptionsReady⟩ := (item.matched_iff h).mp hfit
      have hothers := (ih hs.tail hgiven).mp hrun
      rw [Fits, hwords, hoptions] at hothers
      exact ⟨⟨hwordsReady, hothers.1⟩, hoptionsReady, hothers.2⟩
    · rintro ⟨⟨hwordsReady, hfitsWords⟩, hoptionsReady, hfitsOptions⟩
      have hfit := (item.matched_iff h).mpr ⟨hwordsReady, hoptionsReady⟩
      obtain ⟨hgiven, hwords, hoptions⟩ := item.step h hfit
      refine ⟨hfit, (ih hs.tail hgiven).mpr ?_⟩
      rw [Fits, hwords, hoptions]
      exact ⟨hfitsWords, hfitsOptions⟩

/-! ## Usages of straight lines -/

/-- An alternative of a usage: a line, or an item that is a line of its own. -/
inductive Alternative : Pattern Leaf → List Item → Prop
  | single (item : Item) : Alternative item.pattern [item]
  | line (items : List Item) : Alternative (.required (items.map Item.pattern)) items

/-- The lines of a tree: it is one line, or a choice between several. -/
inductive Tree.HasLines (t : Tree) : List (List Item) → Prop
  | line {items : List Item} (h : t.pattern = .required (items.map Item.pattern)) :
    HasLines t [items]
  | choice {ps : List (Pattern Leaf)} {alts : List (List Item)}
    (h : t.pattern = .required [.either ps]) (halts : List.Forall₂ Alternative ps alts) :
    HasLines t alts

theorem isComplete_line_iff {items : List Item} (hs : Straight items) {s : MatchState}
    (h : ∀ l ∈ s.left, l.Given) :
    ((Pattern.required (items.map Item.pattern)).matcher s).isComplete = true ↔
      Fits items s.left := by
  rw [← exists_chain?_iff_fits hs h, Pattern.matcher, Pattern.matchers_eq_map, List.map_map]
  exact Matcher.isComplete_all_iff

theorem Alternative.isComplete_iff {p : Pattern Leaf} {items : List Item}
    (hp : Alternative p items) (hs : Straight items) {s : MatchState}
    (h : ∀ l ∈ s.left, l.Given) : (p.matcher s).isComplete = true ↔ Fits items s.left := by
  cases hp with
  | single item =>
    rw [← exists_chain?_iff_fits hs h]
    exact Matcher.isComplete_iff_chain?
  | line => exact isComplete_line_iff hs h

/-- A choice between lines takes every leaf exactly if the leaves fit one of the lines. -/
theorem isComplete_choice_iff {ps : List (Pattern Leaf)} {alts : List (List Item)}
    (halts : List.Forall₂ Alternative ps alts) (hs : ∀ items ∈ alts, Straight items)
    {s : MatchState} (h : ∀ l ∈ s.left, l.Given) :
    ((Pattern.either ps).matcher s).isComplete = true ↔ ∃ items ∈ alts, Fits items s.left := by
  rw [Pattern.matcher, Pattern.matchers_eq_map, Matcher.isComplete_fewest_iff]
  induction halts with
  | nil => simp
  | cons hp _ ih =>
    rw [List.forall_mem_cons] at hs
    rw [List.map_cons, List.exists_mem_cons_iff, List.exists_mem_cons_iff, ih hs.2,
      hp.isComplete_iff hs.1 h]

/-- **The language of a straight usage.** Leaves of an invocation, words and options interleaved in
any way, are all taken exactly if they fit one of the lines: its arguments and commands have the
words in order, the surplus goes to its repeated argument, each of its required options is given, and
only its options are. -/
theorem Tree.isComplete_matchLeaves_iff {t : Tree} {alts : List (List Item)}
    (ht : t.HasLines alts) (hs : ∀ items ∈ alts, Straight items) {left : List Leaf}
    (h : ∀ l ∈ left, l.Given) :
    (t.matchLeaves left).isComplete = true ↔ ∃ items ∈ alts, Fits items left := by
  show (t.pattern.matcher ⟨left, []⟩).isComplete = true ↔ _
  cases ht with
  | @line items hpattern =>
    rw [hpattern, isComplete_line_iff (hs items List.mem_cons_self) h]
    simp
  | @choice ps _ hpattern halts =>
    have hchoice := isComplete_choice_iff halts hs (s := ⟨left, []⟩) h
    rw [hpattern, ← hchoice]
    exact Matcher.isComplete_all_iff.trans Matcher.isComplete_iff_chain?.symm

/-- A tree for `add [-v -q] FILE... | --force ID | list`. -/
def Tree.archive : Tree :=
  ⟨[.keyword "add", .option (.ofShort "-v"), .option (.ofShort "-q"),
      .argument (some "FILE") (.list []), .option (.ofLong "--force" 0), .placeholder "ID",
      .keyword "list"],
    .required [.either [.required [.leaf 0, .optional [.leaf 1, .leaf 2], .oneOrMore (.leaf 3)],
      .required [.leaf 4, .leaf 5], .leaf 6]]⟩

/-- The lines of that tree. -/
def Tree.archiveLines : List (List Item) :=
  [[.word (.keyword "add") rfl, .options [.ofShort "-v", .ofShort "-q"],
      .rest (some "FILE") (.list [])],
    [.option (.ofLong "--force" 0), .word (.placeholder "ID") rfl],
    [.word (.keyword "list") rfl]]

/-- The first line is given two files and one of its options twice, in between. -/
theorem Tree.exists_fits_archive :
    let left := [.positional "add", .option (.ofShort "-q"), .positional "a",
      .option (.ofShort "-q"), .positional "b"]
    archive.HasLines archiveLines ∧ (∀ items ∈ archiveLines, Straight items) ∧
      (∀ l ∈ left, l.Given) ∧ (archive.matchLeaves left).isComplete = true ∧
      ∃ items ∈ archiveLines, Fits items left := by
  intro left
  have halts : List.Forall₂ Alternative _ archiveLines :=
    .cons (.line _) (.cons (.line _) (.cons (.single _) .nil))
  have ht : archive.HasLines archiveLines := .choice rfl halts
  have hs : ∀ items ∈ archiveLines, Straight items := by
    simp only [archiveLines, List.forall_mem_cons]
    refine ⟨⟨by decide, by decide⟩, ⟨by decide, by decide⟩, ⟨by decide, by decide⟩, ?_⟩
    intro items hitems
    cases hitems
  have h : ∀ l ∈ left, l.Given := by
    simp only [left, List.forall_mem_cons]
    refine ⟨.word _, .occurrence _, .word _, .occurrence _, .word _, ?_⟩
    intro l hl
    cases hl
  have hcomplete : (archive.matchLeaves left).isComplete = true := by cbv
  exact ⟨ht, hs, h, hcomplete, (Tree.isComplete_matchLeaves_iff ht hs h).mp hcomplete⟩

end Synopsis
