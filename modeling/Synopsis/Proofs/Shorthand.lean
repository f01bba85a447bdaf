import Synopsis.Proofs.Composition
import Synopsis.Proofs.Interleaving
import Synopsis.Proofs.Registration
import Synopsis.Proofs.Simulation
import Synopsis.Proofs.StraightLine

/-!
# The shorthand for all options

An optional group that has nothing in it but the shorthand stands for the optional group of all
options that are known. The longer pattern is written down by `Pattern.spellOut`, at any depth and
as often as the group occurs, and in a tree by new slots behind the old ones (`Tree.spellOut`). Main
statement: as long as only known options are given, which is what reading an invocation without
leniency sees to, the two trees match alike (`Tree.matchNode_spellOut`).

That the two end in the same state at the group itself is not enough: a choice above it counts what
is left, and a repetition above it compares. So the states are followed through the whole pattern,
by the relation "the same state, and only known options are left" (`Registry.SameKnown`), along
which the matchers agree.
-/

namespace Synopsis

/-! ## Spelling out -/

namespace Pattern

variable {α β : Type}

/-- The children of a group are the shorthand and nothing else. -/
def isLone (shorthand : α → Bool) : List (Pattern α) → Bool
  | [leaf a] => shorthand a
  | _ => false

mutual

/-- The pattern with every optional group of a lone shorthand replaced by the optional group of the
entries. -/
def spellOut (shorthand : α → Bool) (entries : List α) : Pattern α → Pattern α
  | leaf a => leaf a
  | required ps => required (spellOutAll shorthand entries ps)
  | optional ps =>
    if isLone shorthand ps then optional (entries.map leaf)
    else optional (spellOutAll shorthand entries ps)
  | either ps => either (spellOutAll shorthand entries ps)
  | oneOrMore p => oneOrMore (p.spellOut shorthand entries)

/-- Each of several patterns spelled out. -/
def spellOutAll (shorthand : α → Bool) (entries : List α) : List (Pattern α) → List (Pattern α)
  | [] => []
  | p :: ps => p.spellOut shorthand entries :: spellOutAll shorthand entries ps

end

theorem spellOutAll_eq_map (shorthand : α → Bool) (entries : List α) (ps : List (Pattern α)) :
    spellOutAll shorthand entries ps = ps.map (spellOut shorthand entries) := by
  induction ps with
  | nil => rfl
  | cons p ps ih => rw [spellOutAll, ih, List.map_cons]

theorem isLone_mapAll {f : α → β} {shorthand : α → Bool} {shorthand' : β → Bool}
    {ps : List (Pattern α)} (h : ∀ a ∈ flatAll ps, shorthand a = shorthand' (f a)) :
    isLone shorthand' (mapAll f ps) = isLone shorthand ps := by
  match ps with
  | [] => rfl
  | [leaf a] => exact (h a List.mem_cons_self).symm
  | [required _] | [optional _] | [either _] | [oneOrMore _] => rfl
  | p :: _ :: _ => cases p <;> rfl

/-- A pattern may be spelled out before its leaves are renamed or after. -/
theorem map_spellOut {f : α → β} {shorthand : α → Bool} {shorthand' : β → Bool} (entries : List α)
    {p : Pattern α} (h : ∀ a ∈ p.flat, shorthand a = shorthand' (f a)) :
    (p.spellOut shorthand entries).map f = (p.map f).spellOut shorthand' (entries.map f) := by
  have hgroup : ∀ ps : List (Pattern α),
      (∀ q ∈ ps, (∀ a ∈ q.flat, shorthand a = shorthand' (f a)) →
        (q.spellOut shorthand entries).map f = (q.map f).spellOut shorthand' (entries.map f)) →
      (∀ a ∈ flatAll ps, shorthand a = shorthand' (f a)) →
      mapAll f (spellOutAll shorthand entries ps) =
        spellOutAll shorthand' (entries.map f) (mapAll f ps) := by
    intro ps ih hps
    rw [mapAll_eq_map, mapAll_eq_map, spellOutAll_eq_map, spellOutAll_eq_map, List.map_map,
      List.map_map]
    refine List.map_congr_left ?_
    intro q hq
    refine ih q hq ?_
    intro a ha
    exact hps a (mem_flatAll.mpr ⟨q, hq, ha⟩)
  induction p using Pattern.ind with
  | leaf a => rfl
  | required ps ih => exact congrArg required (hgroup ps ih h)
  | optional ps ih =>
    rw [spellOut, map, spellOut, isLone_mapAll h]
    split
    · rw [map, mapAll_eq_map, List.map_map, List.map_map]
      rfl
    · exact congrArg optional (hgroup ps ih h)
  | either ps ih => exact congrArg either (hgroup ps ih h)
  | oneOrMore p ih => exact congrArg oneOrMore (ih h)

end Pattern

/-- The leaf is the shorthand for all options. -/
def Leaf.isShorthand : Leaf → Bool
  | anyOptions => true
  | _ => false

theorem Leaf.isShorthand_iff {l : Leaf} : l.isShorthand = true ↔ l = .anyOptions := by
  cases l <;> simp [isShorthand]

/-- **`p.ShorthandAlone`**: the shorthand occurs in the pattern only as all that is in an optional
group. -/
inductive Pattern.ShorthandAlone : Pattern Leaf → Prop
  | leaf {l : Leaf} (h : l ≠ .anyOptions) : ShorthandAlone (.leaf l)
  | shorthand : ShorthandAlone (.optional [.leaf .anyOptions])
  | required {ps : List (Pattern Leaf)} (h : ∀ p ∈ ps, ShorthandAlone p) : ShorthandAlone (.required ps)
  | optional {ps : List (Pattern Leaf)} (h : ∀ p ∈ ps, ShorthandAlone p) : ShorthandAlone (.optional ps)
  | either {ps : List (Pattern Leaf)} (h : ∀ p ∈ ps, ShorthandAlone p) : ShorthandAlone (.either ps)
  | oneOrMore {p : Pattern Leaf} (h : ShorthandAlone p) : ShorthandAlone (.oneOrMore p)

/-- Spelled out, such a pattern has no shorthand any more. -/
theorem Pattern.ShorthandAlone.notMem_spellOut {p : Pattern Leaf} (h : p.ShorthandAlone)
    (r : Registry) :
    .anyOptions ∉ (p.spellOut Leaf.isShorthand (r.map .option)).flat := by
  have hgroup : ∀ ps : List (Pattern Leaf),
      (∀ p ∈ ps, .anyOptions ∉ (p.spellOut Leaf.isShorthand (r.map .option)).flat) →
      .anyOptions ∉ flatAll (spellOutAll Leaf.isShorthand (r.map .option) ps) := by
    intro ps ih hmem
    rw [spellOutAll_eq_map] at hmem
    obtain ⟨q, hq, hflat⟩ := mem_flatAll.mp hmem
    obtain ⟨p, hp, rfl⟩ := List.mem_map.mp hq
    exact ih p hp hflat
  have hentries : .anyOptions ∉ flatAll ((r.map Leaf.option).map Pattern.leaf) := by
    simp [mem_flatAll, flat]
  induction h with
  | leaf hl => simpa [spellOut, flat] using hl.symm
  | shorthand => exact hentries
  | required _ ih => exact hgroup _ ih
  | optional _ ih =>
    rw [spellOut]
    split
    · exact hentries
    · exact hgroup _ ih
  | either _ ih => exact hgroup _ ih
  | oneOrMore _ ih => exact ih

namespace Tree

/-- A part of the tree spelled out. The entries of the registry have the slots behind those of the
tree. -/
def spellOutNode (t : Tree) (r : Registry) (node : Pattern Nat) : Pattern Nat :=
  node.spellOut (fun i => (t.leafAt i).isShorthand) (List.range' t.slots.length r.length)

/-- The tree spelled out: an option for each entry of the registry wherever the shorthand stands
alone. -/
def spellOut (t : Tree) (r : Registry) : Tree :=
  ⟨t.slots ++ r.map .option, t.spellOutNode r t.root⟩

/-- The old slots are as they were. -/
theorem leafAt_spellOut {t : Tree} (r : Registry) {i : Nat} (h : i < t.slots.length) :
    (t.spellOut r).leafAt i = t.leafAt i :=
  List.getD_append _ _ _ _ h

/-- The new slots have the entries of the registry. -/
theorem map_leafAt_range' (t : Tree) (r : Registry) :
    (List.range' t.slots.length r.length).map (t.spellOut r).leafAt = r.map .option := by
  refine List.ext_getElem (by simp) ?_
  intro k hk hk'
  rw [List.length_map] at hk'
  simp [leafAt, spellOut, hk']

theorem resolve_spellOutNode {t : Tree} (r : Registry) {node : Pattern Nat}
    (h : ∀ i ∈ node.flat, i < t.slots.length) :
    (t.spellOut r).resolve (t.spellOutNode r node) =
      (t.resolve node).spellOut Leaf.isShorthand (r.map .option) := by
  have hleaves : node.map (t.spellOut r).leafAt = node.map t.leafAt :=
    Pattern.map_congr fun i hi => leafAt_spellOut r (h i hi)
  have hshorthand : ∀ i ∈ node.flat,
      (t.leafAt i).isShorthand = ((t.spellOut r).leafAt i).isShorthand := by
    intro i hi
    rw [leafAt_spellOut r (h i hi)]
  rw [resolve, resolve, spellOutNode, Pattern.map_spellOut _ hshorthand, map_leafAt_range', hleaves]

end Tree

/-! ## Known options -/

/-- **`r.Knows ls`**: every option among the leaves has the names of an entry. -/
def Registry.Knows (r : Registry) (ls : List Leaf) : Prop :=
  ∀ o ∈ occurrences ls, ∃ e ∈ r, o.sameNames e = true

theorem Registry.Knows.of_subset {r : Registry} {ls ms : List Leaf} (h : r.Knows ls) (hsub : ms ⊆ ls) :
    r.Knows ms := by
  intro o ho
  exact h o (mem_occurrences.mpr (hsub (mem_occurrences.mp ho)))

/-- Reading an invocation without leniency lets only known options through. -/
theorem Registry.knows_of_readInvocation {r : Registry} {words : List String} {leaves : List Leaf}
    (h : (readInvocation .strict r words).outcome = .ok leaves) : r.Knows leaves := by
  have hgrounded := grounded_readInvocation .strict r words
  intro o ho
  have hlists := hgrounded.listed leaves h o (mem_occurrences.mp ho)
  rw [hgrounded.grows.eq_of_strict] at hlists
  obtain ⟨e, he, hshort, hlong, -⟩ := hlists
  exact ⟨e, he, (Opt.sameNames_iff o e).mpr ⟨hshort.symm, hlong.symm⟩⟩

/-- Among known options, being an option is being an occurrence of an entry. -/
theorem Registry.Knows.any_isOccurrenceOf {r : Registry} {ls : List Leaf} (h : r.Knows ls) {l : Leaf}
    (hl : l ∈ ls) : (r.any fun o => l.isOccurrenceOf o) = l.isOption := by
  cases l with
  | option o =>
    obtain ⟨e, he, hnames⟩ := h o (mem_occurrences.mpr hl)
    exact List.any_eq_true.mpr ⟨e, he, hnames⟩
  | argument name value => exact List.any_eq_false.mpr fun _ _ => Bool.false_ne_true
  | command name given => exact List.any_eq_false.mpr fun _ _ => Bool.false_ne_true
  | anyOptions => exact List.any_eq_false.mpr fun _ _ => Bool.false_ne_true

/-! ## Matching -/

/-- A leaf takes leaves, and puts none back. -/
theorem Leaf.left_matcher_subset (l : Leaf) (s : MatchState) : (l.matcher s).left ⊆ s.left := by
  cases l with
  | argument name value =>
    show (matchArgument name value s).left ⊆ s.left
    unfold matchArgument
    split
    · next v rest hrest => exact (takePositional?_views hrest).1.subset
    · exact List.Subset.refl _
  | command name given =>
    show (matchCommand name s).left ⊆ s.left
    unfold matchCommand
    split
    · next v rest hrest =>
      split
      · exact (takePositional?_views hrest).1.subset
      · exact List.Subset.refl _
    · exact List.Subset.refl _
  | option o => exact List.filter_subset_self _
  | anyOptions => exact List.filter_subset_self _

/-- The states are the same, and only known options are left. -/
def Registry.SameKnown (r : Registry) (s t : MatchState) : Prop := s = t ∧ r.Knows s.left

theorem Registry.eq_of_alike {r : Registry} {o p : Outcome} (h : o.Alike r.SameKnown p) : o = p := by
  obtain ⟨hmatched, hstate, -⟩ := h
  show Outcome.mk o.toMatchState o.matched = Outcome.mk p.toMatchState p.matched
  rw [hstate, hmatched]

theorem agree_leaf_self (r : Registry) (l : Leaf) :
    Matcher.Agree r.SameKnown l.matcher l.matcher := by
  rintro s _ ⟨rfl, hknows⟩
  exact ⟨rfl, rfl, hknows.of_subset (l.left_matcher_subset s)⟩

/-- **The step.** The optional group of the lone shorthand and that of all entries take the same
leaves. -/
theorem agree_shorthand (r : Registry) :
    Matcher.Agree r.SameKnown (Pattern.optional [.leaf .anyOptions]).matcher
      (Pattern.optional ((r.map Leaf.option).map .leaf)).matcher := by
  rintro s _ ⟨rfl, hknows⟩
  have hshort : Matcher.passing (Pattern.matchers [.leaf .anyOptions]) s =
      ⟨s.left.filter fun l => !l.isOption, s.collected⟩ := stateOr_matchAllOf Leaf.isOption s
  have hlong : Matcher.passing (Pattern.matchers ((r.map Leaf.option).map .leaf)) s =
      ⟨s.left.filter fun l => !l.isOption, s.collected⟩ := by
    rw [Pattern.matchers_eq_map, List.map_map, List.map_map]
    refine (passing_options r s).trans ?_
    refine congrArg (MatchState.mk · s.collected) (List.filter_congr ?_)
    intro l hl
    rw [hknows.any_isOccurrenceOf hl]
  refine ⟨rfl, ?_⟩
  show r.SameKnown (Matcher.passing _ s) (Matcher.passing _ s)
  rw [hshort, hlong]
  exact ⟨rfl, hknows.of_subset (List.filter_subset_self _)⟩

theorem Pattern.eq_of_isLone {ps : List (Pattern Leaf)} (h : isLone Leaf.isShorthand ps = true) :
    ps = [.leaf .anyOptions] := by
  unfold isLone at h
  split at h
  · next l => rw [Leaf.isShorthand_iff.mp h]
  · cases h

/-- **The run.** A pattern and the pattern spelled out agree, whatever stands around the shorthand. -/
theorem Pattern.agree_spellOut (r : Registry) (p : Pattern Leaf) :
    Matcher.Agree r.SameKnown p.matcher (p.spellOut Leaf.isShorthand (r.map .option)).matcher := by
  have hlength : ∀ s t, r.SameKnown s t → s.left.length = t.left.length := by
    rintro s _ ⟨rfl, -⟩
    rfl
  have hgroup : ∀ ps : List (Pattern Leaf),
      (∀ q ∈ ps, Matcher.Agree r.SameKnown q.matcher
        (q.spellOut Leaf.isShorthand (r.map .option)).matcher) →
      List.Forall₂ (Matcher.Agree r.SameKnown) (matchers ps)
        (matchers (spellOutAll Leaf.isShorthand (r.map .option) ps)) := by
    intro ps ih
    rw [matchers_eq_map, matchers_eq_map, spellOutAll_eq_map, List.map_map]
    rw [List.forall₂_map_left_iff, List.forall₂_map_right_iff, List.forall₂_same]
    exact ih
  induction p using Pattern.ind with
  | leaf l => exact agree_leaf_self r l
  | required ps ih => exact Matcher.agree_all (hgroup ps ih)
  | optional ps ih =>
    rw [spellOut]
    split
    · next hlone =>
      rw [eq_of_isLone hlone]
      exact agree_shorthand r
    · exact Matcher.agree_each (hgroup ps ih)
  | either ps ih => exact Matcher.agree_fewest hlength (hgroup ps ih)
  | oneOrMore p ih => exact Matcher.agree_many hlength ih

/-- **The shorthand means all known options, optionally.** Take any part of a tree, any bindings
made before, and leaves of which the options are known. Spelled out, the part has the same outcome:
it fits or not, leaves the same leaves and has made the same bindings. If the shorthand only stood
alone in optional groups it is gone. The leaves that an invocation is read into without leniency are
such leaves. -/
theorem Tree.matchNode_spellOut (r : Registry) (t : Tree) {node : Pattern Nat}
    (hnode : ∀ i ∈ node.flat, i < t.slots.length) :
    (∀ left collected, r.Knows left →
      (t.spellOut r).matchNode (t.spellOutNode r node) left collected =
        t.matchNode node left collected) ∧
    ((t.resolve node).ShorthandAlone →
      .anyOptions ∉ ((t.spellOut r).resolve (t.spellOutNode r node)).flat) ∧
    ∀ words leaves, (readInvocation .strict r words).outcome = .ok leaves → r.Knows leaves := by
  refine ⟨?_, ?_, ?_⟩
  · intro left collected hknows
    rw [matchNode, matchNode, resolve_spellOutNode r hnode]
    have halike := (t.resolve node).agree_spellOut r ⟨left, collected⟩ ⟨left, collected⟩ ⟨rfl, hknows⟩
    exact (Registry.eq_of_alike halike).symm
  · intro halone
    rw [resolve_spellOutNode r hnode]
    exact halone.notMem_spellOut r
  · intro words leaves hleaves
    exact Registry.knows_of_readInvocation hleaves

/-- The shorthand stands twice in the first of two alternatives, the second time under a repetition.
Of the two options known, the one that is given has both names and is given by the long one. -/
theorem Tree.matchNode_spellOut_sample :
    let r : Registry := [.ofShort "-q", .declared (some "-v") (some "--verbose") 0]
    let t : Tree := ⟨[.anyOptions, .placeholder "FILE", .anyOptions, .keyword "stop"],
      .required [.either
        [.required [.optional [.leaf 0], .oneOrMore (.required [.leaf 1, .optional [.leaf 2]])],
          .leaf 3]]⟩
    let left : List Leaf :=
      [.positional "a", .option ⟨some "-v", some "--verbose", 0, .bool true⟩, .positional "b"]
    parsePattern r "[options] (FILE [options])... | stop" = ⟨.ok t, r⟩ ∧ t.InRange ∧
    (readInvocation .strict r ["a", "--verb", "b"]).outcome = .ok left ∧ r.Knows left ∧
    (t.matchLeaves left).isComplete = true ∧
    ((t.spellOut r).matchNode (t.spellOutNode r t.root) left []).isComplete = true ∧
    .anyOptions ∉ ((t.spellOut r).resolve (t.spellOutNode r t.root)).flat := by
  intro r t left
  have hparse : parsePattern r "[options] (FILE [options])... | stop" = ⟨.ok t, r⟩ :=
    parsePattern_of_runWithin rfl
  have hrange : t.InRange := by
    unfold Tree.InRange
    decide
  have halone : (t.resolve t.root).ShorthandAlone := by
    have hfile : (Pattern.leaf (.placeholder "FILE")).ShorthandAlone := .leaf (by decide)
    have hstop : (Pattern.leaf (.keyword "stop")).ShorthandAlone := .leaf (by decide)
    let round : Pattern Leaf := .required [.leaf (.placeholder "FILE"), .optional [.leaf .anyOptions]]
    have hround : round.ShorthandAlone := .required (by simp [hfile, Pattern.ShorthandAlone.shorthand])
    have hfirst : (Pattern.required [.optional [.leaf .anyOptions], .oneOrMore round]).ShorthandAlone :=
      .required (by simp [hround.oneOrMore, Pattern.ShorthandAlone.shorthand])
    have hlines := List.forall_mem_cons.mpr ⟨hfirst, List.forall_mem_singleton.mpr hstop⟩
    exact .required (List.forall_mem_singleton.mpr (.either hlines))
  have hread : (readInvocation .strict r ["a", "--verb", "b"]).outcome = .ok left := by cbv
  have hcomplete : (t.matchLeaves left).isComplete = true := by cbv
  obtain ⟨hsame, hgone, hknows⟩ := Tree.matchNode_spellOut r t hrange
  refine ⟨hparse, hrange, hread, hknows _ left hread, hcomplete, ?_, hgone halone⟩
  rw [hsame left [] (hknows _ left hread)]
  exact hcomplete

end Synopsis
