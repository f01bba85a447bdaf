import Mathlib
import Synopsis.Proofs.Numbering

/-!
# The shape of a tree that was read

Not every pattern can come of a usage text. A choice is all that is in a group and has at least two
alternatives, an ellipsis repeats one leaf or one group, and the shorthand for options is all that is in
square brackets. `Pattern.WellBuilt` says how one part may hold its children, and `Tree.WellBuilt` asks it of
every part, together with the numbers and the names of the leaves. Main statement: reading any text ends
after at most one step for each token, and a tree that it ends with is well built
(`parsePattern_ends_wellBuilt`).

A choice or the shorthand may not stand among other patterns, and a part does not know what will stand
around it. So the invariant of the reader is about atoms (`Pattern.Atom`): what is on a level may be put
beside anything, and closing the level makes of it either atoms again or one choice (`Pattern.Contents`),
which the group around it takes in.
-/

namespace Synopsis

/-! ## Every part of a pattern -/

namespace Pattern

/-- **`p.Throughout P`**: the pattern and each part of it have the property `P`. -/
def Throughout {α : Type} (P : Pattern α → Prop) (p : Pattern α) : Prop :=
  ∀ path q, p.descend? path = some q → P q

/-- A part is the pattern itself or a part of a child. -/
theorem throughout_iff {α : Type} {P : Pattern α → Prop} {p : Pattern α} :
    p.Throughout P ↔ P p ∧ ∀ q ∈ p.children, q.Throughout P := by
  constructor
  · intro h
    refine ⟨h [] p rfl, ?_⟩
    intro q hq path r hr
    obtain ⟨i, hi⟩ := List.mem_iff_getElem?.mp hq
    refine h (i :: path) r ?_
    rw [descend?, hi]
    exact hr
  · rintro ⟨hp, hchildren⟩ path q hq
    cases path with
    | nil => exact Option.some.inj hq ▸ hp
    | cons i path =>
      obtain ⟨child, hchild, hpart⟩ := Option.bind_eq_some_iff.mp hq
      exact hchildren child (List.mem_of_getElem? hchild) path q hpart

/-! ## How a part holds its children -/

/-- **`p.WellBuilt slots`**: how a pattern over the slots may hold its children. -/
structure WellBuilt (slots : List Leaf) (p : Pattern Nat) : Prop where
  /-- A choice is the only child of a group. -/
  choice_alone : ∀ qs, .either qs ∈ p.children → p = .required [.either qs] ∨ p = .optional [.either qs]
  /-- A choice has at least two alternatives, and none of them is a choice. -/
  alternatives : ∀ qs, p = .either qs → 2 ≤ qs.length ∧ ∀ rs, .either rs ∉ qs
  /-- What is repeated is a leaf or a group. -/
  repeated : ∀ q, p = .oneOrMore q →
    (∃ i, q = .leaf i) ∨ (∃ qs, q = .required qs) ∨ ∃ qs, q = .optional qs
  /-- The shorthand for options is the only child of an optional group. -/
  shorthand_alone : ∀ i, .leaf i ∈ p.children → slots[i]? = some .anyOptions → p = .optional [.leaf i]

/-- **`p.Atom slots`**: a pattern that may stand among others. Each part of it is well built, and it is
itself neither a choice nor the shorthand for options. -/
structure Atom (slots : List Leaf) (p : Pattern Nat) : Prop where
  throughout : p.Throughout (WellBuilt slots)
  not_choice : ∀ qs, p ≠ .either qs
  not_shorthand : ∀ i, p = .leaf i → slots[i]? ≠ some .anyOptions

/-- **`Contents slots ps`**: patterns that a group may hold: atoms, or one choice between atoms. -/
inductive Contents (slots : List Leaf) : List (Pattern Nat) → Prop
  | atoms {ps : List (Pattern Nat)} (h : ∀ p ∈ ps, p.Atom slots) : Contents slots ps
  | choice {qs : List (Pattern Nat)} (hlength : 2 ≤ qs.length) (h : ∀ q ∈ qs, q.Atom slots) :
      Contents slots [.either qs]

variable {slots : List Leaf} {i : Nat} {p : Pattern Nat} {ps : List (Pattern Nat)}

/-- A pattern that holds atoms only is well built throughout, if a choice has two of them and nothing is
repeated twice. -/
theorem throughout_of_atoms (h : ∀ q ∈ p.children, q.Atom slots)
    (hlength : ∀ qs, p = .either qs → 2 ≤ qs.length)
    (honce : ∀ q r, p = .oneOrMore q → q ≠ .oneOrMore r) : p.Throughout (WellBuilt slots) := by
  refine throughout_iff.mpr ⟨⟨?_, ?_, ?_, ?_⟩, fun q hq => (h q hq).throughout⟩
  · intro qs hqs
    exact absurd rfl ((h _ hqs).not_choice qs)
  · rintro qs rfl
    exact ⟨hlength qs rfl, fun rs hrs => (h _ hrs).not_choice rs rfl⟩
  · rintro q rfl
    have hq : q.Atom slots := h q (List.mem_singleton_self q)
    cases q with
    | leaf i => exact Or.inl ⟨i, rfl⟩
    | required qs => exact Or.inr (Or.inl ⟨qs, rfl⟩)
    | optional qs => exact Or.inr (Or.inr ⟨qs, rfl⟩)
    | either qs => exact absurd rfl (hq.not_choice qs)
    | oneOrMore r => exact absurd rfl (honce _ r rfl)
  · intro i hi hslot
    exact absurd hslot ((h _ hi).not_shorthand i rfl)

theorem atom_leaf (h : slots[i]? ≠ some .anyOptions) : (leaf i).Atom slots where
  throughout := throughout_of_atoms nofun nofun nofun
  not_choice := nofun
  not_shorthand := by
    rintro j ⟨⟩
    exact h

theorem atom_oneOrMore (h : p.Atom slots) (honce : ∀ q, p ≠ .oneOrMore q) :
    (oneOrMore p).Atom slots where
  throughout := by
    refine throughout_of_atoms ?_ nofun ?_
    · intro q hq
      rwa [List.mem_singleton.mp hq]
    · rintro q r ⟨⟩
      exact honce r
  not_choice := nofun
  not_shorthand := nofun

/-- The shorthand for options in its brackets. Whether the leaf is the shorthand does not matter here. -/
theorem atom_shorthand : (optional [leaf i]).Atom slots where
  throughout := by
    refine throughout_iff.mpr ⟨⟨?_, nofun, nofun, ?_⟩, ?_⟩
    · intro qs hqs
      cases List.mem_singleton.mp hqs
    · intro j hj _
      rw [List.mem_singleton.mp hj]
    · intro q hq
      rw [List.mem_singleton.mp hq]
      exact throughout_of_atoms nofun nofun nofun
  not_choice := nofun
  not_shorthand := nofun

theorem children_group (b : Bracket) (ps : List (Pattern Nat)) : (b.group ps).children = ps := by
  cases b <;> rfl

/-- A pair of brackets makes an atom of what it may hold. -/
theorem Contents.atom_group (h : Contents slots ps) (b : Bracket) : (b.group ps).Atom slots where
  throughout := by
    cases h with
    | atoms h =>
      refine throughout_of_atoms ?_ ?_ ?_
      · rwa [children_group]
      · cases b <;> nofun
      · cases b <;> nofun
    | @choice qs hlength h =>
      have hchoice : (either qs).Throughout (WellBuilt slots) := by
        refine throughout_of_atoms h ?_ nofun
        rintro qs ⟨⟩
        exact hlength
      refine throughout_iff.mpr ⟨⟨?_, ?_, ?_, ?_⟩, ?_⟩
      · intro rs hrs
        rw [children_group] at hrs
        rw [List.mem_singleton.mp hrs]
        cases b with
        | round => exact Or.inl rfl
        | square => exact Or.inr rfl
      · cases b <;> nofun
      · cases b <;> nofun
      · intro i hi
        rw [children_group] at hi
        cases List.mem_singleton.mp hi
      · intro q hq
        rw [children_group] at hq
        rwa [List.mem_singleton.mp hq]
  not_choice := by cases b <;> nofun
  not_shorthand := by cases b <;> nofun

/-- Atoms are atoms still if an ellipsis follows them. -/
theorem atom_of_maybeRepeated {atoms taken : List (Pattern Nat)} (h : MaybeRepeated atoms taken)
    (hatoms : ∀ p ∈ atoms, p.Atom slots ∧ ∀ q, p ≠ .oneOrMore q) : ∀ p ∈ taken, p.Atom slots := by
  rcases h with rfl | rfl
  · exact fun p hp => (hatoms p hp).1
  · intro p hp
    rw [List.mem_singleton.mp hp]
    unfold asRepeated
    split
    · next q =>
      obtain ⟨hq, honce⟩ := hatoms q List.mem_cons_self
      exact atom_oneOrMore hq honce
    · have hcontents : Contents slots atoms := .atoms fun p hp => (hatoms p hp).1
      exact atom_oneOrMore (hcontents.atom_group .round) nofun

end Pattern

open Pattern (Contents)

/-! ## Levels -/

namespace Level

variable {slots : List Leaf} {l : Level}

/-- **`l.Atoms slots`**: all that has been read on the level are atoms. -/
def Atoms (slots : List Leaf) (l : Level) : Prop :=
  ∀ ps ∈ l.finished ++ [l.current], ∀ p ∈ ps, p.Atom slots

theorem atoms_empty : Level.empty.Atoms slots := by
  intro ps hps p hp
  rw [List.mem_singleton.mp hps] at hp
  cases hp

theorem atoms_add (h : l.Atoms slots) {atoms : List (Pattern Nat)}
    (hatoms : ∀ p ∈ atoms, p.Atom slots) : (l.add atoms).Atoms slots := by
  intro ps hps p hp
  rcases List.mem_append.mp hps with hps | hps
  · exact h ps (List.mem_append_left _ hps) p hp
  · rw [List.mem_singleton.mp hps] at hp
    rcases List.mem_append.mp hp with hp | hp
    · exact h l.current List.mem_concat_self p hp
    · exact hatoms p hp

theorem atoms_startAlternative (h : l.Atoms slots) : l.startAlternative.Atoms slots := by
  intro ps hps p hp
  rcases List.mem_append.mp hps with hps | hps
  · exact h ps hps p hp
  · rw [List.mem_singleton.mp hps] at hp
    cases hp

/-- Alternatives of several atoms become groups, which are atoms. -/
theorem atom_of_mem_alternatives (h : l.Atoms slots) {p : Pattern Nat} (hp : p ∈ l.alternatives) :
    p.Atom slots := by
  obtain ⟨ps, hps, hp⟩ := List.mem_flatMap.mp hp
  have hatoms := h ps hps
  unfold asAlternative at hp
  split at hp
  · rw [List.mem_singleton.mp hp]
    exact (Contents.atoms hatoms).atom_group .round
  · exact hatoms p hp

theorem contents_chosen {ps : List (Pattern Nat)} (h : ∀ p ∈ ps, p.Atom slots) :
    Contents slots (chosen ps) := by
  unfold chosen
  split
  · exact .choice (Nat.le_add_left 2 _) h
  · exact .atoms h

/-- Closing a level of atoms gives what a group may hold. -/
theorem contents_close (h : l.Atoms slots) : Contents slots l.close := by
  by_cases hfinished : l.finished = []
  · rw [close_of_no_bar hfinished]
    exact .atoms (h l.current List.mem_concat_self)
  · rw [close_of_bar hfinished]
    exact contents_chosen fun p hp => atom_of_mem_alternatives h hp

end Level

/-! ## Reading -/

namespace Draft

variable {slots : List Leaf} {d d' : Draft}

/-- **`d.Atoms slots`**: all that has been read on any level are atoms. -/
def Atoms (slots : List Leaf) (d : Draft) : Prop :=
  (∀ e ∈ d.outer, e.2.Atoms slots) ∧ d.level.Atoms slots

/-- The places of new leaves are atoms, whatever slots come later, if the shorthand is not among them. -/
theorem atom_of_mem_placesFor {leaves : List Leaf} (hslots : d.slots ++ leaves <+: slots)
    (hleaves : .anyOptions ∉ leaves) {p : Pattern Nat} (hp : p ∈ d.placesFor leaves) :
    p.Atom slots ∧ ∀ q, p ≠ .oneOrMore q := by
  obtain ⟨i, hi, rfl⟩ := List.mem_map.mp hp
  refine ⟨Pattern.atom_leaf ?_, nofun⟩
  intro hslot
  obtain ⟨later, rfl⟩ := hslots
  obtain ⟨hle, hlt⟩ := List.mem_range'_1.mp hi
  rw [List.append_assoc, List.getElem?_append_right hle,
    List.getElem?_append_left (by omega)] at hslot
  exact hleaves (List.mem_of_getElem? hslot)

/-- What one step keeps: over slots of which the draft has the first ones, everything read is an atom. -/
theorem atoms_of_step (hd : d.Atoms slots) (h : d.Step d') (hslots : d'.slots <+: slots) :
    d'.Atoms slots := by
  obtain ⟨houter, hlevel⟩ := hd
  cases h with
  | opened b => exact ⟨List.forall_mem_cons.mpr ⟨hlevel, houter⟩, Level.atoms_empty⟩
  | bar => exact ⟨houter, Level.atoms_startAlternative hlevel⟩
  | @closed b level outer taken hopen htaken =>
    rw [hopen] at houter
    obtain ⟨haround, houter⟩ := List.forall_mem_cons.mp houter
    have hgroup : (b.group d.level.close).Atom slots := (Level.contents_close hlevel).atom_group b
    refine ⟨houter, Level.atoms_add haround (Pattern.atom_of_maybeRepeated htaken ?_)⟩
    exact List.forall_mem_singleton.mpr ⟨hgroup, by cases b <;> nofun⟩
  | @leaves registry leaves taken hfresh htaken =>
    have hleaves : .anyOptions ∉ leaves := fun hmem => nomatch hfresh _ hmem
    refine ⟨houter, Level.atoms_add hlevel (Pattern.atom_of_maybeRepeated htaken ?_)⟩
    exact fun p hp => atom_of_mem_placesFor hslots hleaves hp
  | anyOptions htaken =>
    refine ⟨houter, Level.atoms_add hlevel (Pattern.atom_of_maybeRepeated htaken ?_)⟩
    exact List.forall_mem_singleton.mpr ⟨Pattern.atom_shorthand, nofun⟩

end Draft

/-- The root of a tree that was read is a required group of atoms or of one choice. -/
theorem contents_of_parsePattern {registry : Registry} {source : String} {t : Tree}
    (h : (parsePattern registry source).outcome = .ok t) :
    ∃ ps, t.root = .required ps ∧ Contents t.slots ps := by
  -- a slot once made stays, so the slots of the tree serve for all drafts on the way to it
  have hstep : ∀ d d' : Draft, (d.slots <+: t.slots → d.Atoms t.slots) → d.Step d' →
      d'.slots <+: t.slots → d'.Atoms t.slots := by
    intro d d' hd hnext hslots
    exact Draft.atoms_of_step (hd ((Draft.slots_prefix_of_step hnext).trans hslots)) hnext hslots
  have hstart : (Draft.start .grammar registry).Atoms t.slots := ⟨nofun, Level.atoms_empty⟩
  obtain ⟨d, hd, -, ht⟩ := Draft.exists_draft_of_run hstep (fun _ => hstart) h
  have hatoms : d.Atoms t.slots := hd (by rw [ht])
  exact ⟨d.level.close, by rw [ht], Level.contents_close hatoms.2⟩

/-! ## Names -/

namespace TokenKind

variable {name : String}

/-- The name of an argument starts with no dash. -/
theorem head?_ne_dash (h : TokenKind.of name = .argument) : name.toList.head? ≠ some '-' := by
  rw [of_word (marks_of_eq h) (ne_bar h nofun)] at h
  split at h
  · cases h
  · cases h
  · cases h
  · next hplain =>
    -- one dash is a plain word too, but it is no place holder
    rcases wordKind_eq_iff.mp hplain with rfl | hhead
    · cases h
    · exact hhead

/-- The name of a command starts with a dash only if it is one dash or two. -/
theorem eq_dashes (h : TokenKind.of name = .command) (hhead : name.toList.head? = some '-') :
    name = "-" ∨ name = "--" := by
  rw [of_word (marks_of_eq h) (ne_bar h nofun)] at h
  split at h
  · next hseparator => exact Or.inr (wordKind_eq_iff.mp hseparator)
  · cases h
  · cases h
  · next hplain => exact Or.inl ((wordKind_eq_iff.mp hplain).resolve_right (absurd hhead))

end TokenKind

namespace Leaf.Fresh

theorem of_argument {name : Option String} {v : Value} (h : (argument name v).Fresh) :
    (∃ n, name = some n ∧ n.toList.head? ≠ some '-') ∧ v = .null := by
  cases h with
  | placeholder hkind => exact ⟨⟨_, rfl, TokenKind.head?_ne_dash hkind⟩, rfl⟩

theorem of_command {name : String} {given : Bool} (h : (command name given).Fresh) :
    given = false ∧ (name.toList.head? = some '-' → name = "-" ∨ name = "--") := by
  cases h with
  | keyword hkind => exact ⟨rfl, TokenKind.eq_dashes hkind⟩

end Leaf.Fresh

/-! ## The end of reading -/

namespace Draft

/-- **`d.Ends tokens steps parsed`**: reading the tokens from the draft on takes so many steps and ends
with `parsed`. A reading that never ends is in no such relation. -/
inductive Ends : Draft → List String → Nat → Parsed → Prop
  | finished (d : Draft) : Ends d [] 0 d.finish
  | stopped {d : Draft} {token : String} {rest : List String} {failure : Failure}
      {registry : Registry} (h : d.advance token rest = .stop failure registry) :
      Ends d (token :: rest) 1 ⟨.error failure, registry⟩
  | advanced {d d' : Draft} {token : String} {rest rest' : List String} {steps : Nat}
      {parsed : Parsed} (h : d.advance token rest = .more d' rest')
      (hrest : Ends d' rest' steps parsed) : Ends d (token :: rest) (steps + 1) parsed

/-- Each step takes a token off, so there are no more steps than tokens. -/
theorem exists_ends (d : Draft) (tokens : List String) :
    ∃ steps ≤ tokens.length, d.Ends tokens steps (d.run tokens) := by
  fun_induction run d tokens with
  | case1 d => exact ⟨0, Nat.le_refl 0, .finished d⟩
  | case2 d token rest d' rest' hadvance ih =>
    obtain ⟨steps, hsteps, hends⟩ := ih
    exact ⟨steps + 1, Nat.lt_of_le_of_lt hsteps (length_of_advance hadvance), .advanced hadvance hends⟩
  | case3 d token rest failure registry hadvance =>
    exact ⟨1, Nat.le_add_left 1 _, .stopped hadvance⟩

end Draft

/-! ## Well-built trees -/

/-- **`t.WellBuilt`**: the shape of a tree that can be read. -/
structure Tree.WellBuilt (t : Tree) : Prop where
  /-- The places are numbered from left to right, and each slot is in one place. -/
  numbered : t.root.flat = List.range t.slots.length
  required : ∃ ps, t.root = .required ps
  /-- Every part holds its children as a usage text can say it. -/
  throughout : t.root.Throughout (Pattern.WellBuilt t.slots)
  /-- An argument has a name that starts with no dash, and is not bound. -/
  arguments : ∀ name v, .argument name v ∈ t.slots →
    (∃ n, name = some n ∧ n.toList.head? ≠ some '-') ∧ v = .null
  /-- A command has not been met, and its name starts with a dash only if it is one dash or two. -/
  commands : ∀ name given, .command name given ∈ t.slots →
    given = false ∧ (name.toList.head? = some '-' → name = "-" ∨ name = "--")

/-- **Reading ends, and what it gives is well built.** For any text and any options known before, reading
comes to its end after at most as many steps as there are tokens. If it gives a tree, no number in the
tree is out of range and the tree has the shape of a usage text. -/
theorem parsePattern_ends_wellBuilt (registry : Registry) (source : String) :
    (∃ steps ≤ (tokenize source).length,
      (Draft.start .grammar registry).Ends (tokenize source) steps (parsePattern registry source)) ∧
    ∀ t, (parsePattern registry source).outcome = .ok t → t.InRange ∧ t.WellBuilt := by
  refine ⟨Draft.exists_ends _ _, ?_⟩
  intro t h
  obtain ⟨ps, hroot, hcontents⟩ := contents_of_parsePattern h
  refine ⟨inRange_of_parsePattern h, flat_of_parsePattern h, ⟨ps, hroot⟩, ?_, ?_, ?_⟩
  · rw [hroot]
    exact (hcontents.atom_group .round).throughout
  · intro name v hmem
    exact ((slots_of_parsePattern h _ hmem).resolve_right nofun).of_argument
  · intro name given hmem
    exact ((slots_of_parsePattern h _ hmem).resolve_right nofun).of_command

/-- An ellipsis behind the shorthand and behind a cluster, a choice inside a choice, and both commands of
dashes. -/
theorem parsePattern_ends_wellBuilt_sample :
    let t : Tree := ⟨[.anyOptions, .option (.ofShort "-a"), .option (.ofShort "-b"), .placeholder "N",
      .keyword "--", .keyword "-"],
      .required [.oneOrMore (.optional [.leaf 0]),
        .required [.either [.oneOrMore (.required [.leaf 1, .leaf 2]),
          .required [.leaf 3, .optional [.either [.leaf 4, .leaf 5]]]]]]⟩
    (parsePattern [] "[options]...(-ab...|N[--|-])").outcome = .ok t ∧ t.InRange ∧ t.WellBuilt := by
  intro t
  have htokens : tokenize "[options]...(-ab...|N[--|-])" =
      ["[", "options", "]", "...", "(", "-ab", "...", "|", "N", "[", "--", "|", "-", "]", ")"] := by decide
  have h : (parsePattern [] "[options]...(-ab...|N[--|-])").outcome = .ok t := by
    rw [parsePattern_eq_run, htokens]
    cbv
  exact ⟨h, (parsePattern_ends_wellBuilt [] _).2 t h⟩

end Synopsis
