import Mathlib.Logic.Relation
import Synopsis.Proofs.Spelling
import Synopsis.Tree.Grammar

/-!
# How a registry grows

Readers take up unknown options while they read, and what they took up stays when they meet a fault.
`Registry.Registers` says once what one registration can do: it puts an option with one name behind the
entries there are, and only if none of them answers to that name. Every reader, on any words and whether
or not it ends in a fault, goes from one registry to another by such registrations only
(`Reading.Grounded`, `Invocation.Grounded`, `Progress.Grounded`).

From the relation, and not from the readers, comes what a registry looks like afterwards
(`Registry.extends_of_grows`): the old entries are an untouched front part, each new entry is told apart
from all others by its name, and where unknown options are faults nothing is added. An option that was
read is a copy of an entry of the registry in all but its value (`Registry.Lists`).
-/

namespace Synopsis

/-! ## Entries that were taken up -/

/-- **`o.Bare`**: an option as it is taken up. It has exactly one name, takes at most one value, and is
not given. -/
structure Opt.Bare (o : Opt) : Prop where
  name : o.short.isSome ≠ o.long.isSome
  arity : o.arity = 0 ∨ o.arity = 1
  value : o.value = .bool false

theorem Opt.bare_ofShort (name : String) : (Opt.ofShort name).Bare where
  name := Bool.noConfusion
  arity := Or.inl rfl
  value := rfl

theorem Opt.bare_ofLong (name : String) {arity : Nat} (harity : arity = 0 ∨ arity = 1) :
    (Opt.ofLong name arity).Bare where
  name := Bool.noConfusion
  arity := harity
  value := rfl

/-- **`o.Apart before after`**: the short name of `o` is that of no entry before or after it, and its
long name is neither that of an entry before it nor an abbreviation of one. -/
structure Opt.Apart (o : Opt) (before after : Registry) : Prop where
  short : ∀ name, o.short = some name → ∀ e ∈ before ++ after, e.short ≠ some name
  long : ∀ name, o.long = some name → ∀ e ∈ before, ¬ Registry.Abbreviated name e

namespace Registry

/-- **`r.Lists o`**: some entry agrees with `o` in all but the value. -/
def Lists (r : Registry) (o : Opt) : Prop :=
  ∃ e ∈ r, e.short = o.short ∧ e.long = o.long ∧ e.arity = o.arity

theorem lists_given {r : Registry} {o : Opt} (ho : o ∈ r) (v : Value) : r.Lists (o.given v) :=
  ⟨o, ho, rfl, rfl, rfl⟩

/-- No two entries have a name in common. -/
def Distinct (r : Registry) : Prop :=
  r.Pairwise fun o p =>
    (∀ name, o.short = some name → p.short ≠ some name) ∧
      ∀ name, o.long = some name → p.long ≠ some name

/-! ## One registration -/

/-- **`Registers mode r r'`**: `r'` is `r` with one more option, which the mode allows to take up and to
whose name no entry of `r` answers. -/
inductive Registers (mode : Mode) (r : Registry) : Registry → Prop
  /-- A flag is taken up by its short name. -/
  | short {name : String} (hmode : mode.registersUnknown = true)
      (hnew : r.shortCandidates name = []) : Registers mode r (r ++ [.ofShort name])
  /-- An option is taken up by its long name. -/
  | long {name : String} {arity : Nat} (hmode : mode.registersUnknown = true)
      (harity : arity = 0 ∨ arity = 1) (hnew : r.longCandidates name = []) :
      Registers mode r (r ++ [.ofLong name arity])

theorem not_abbreviated_of_longCandidates {r : Registry} {name : String}
    (h : r.longCandidates name = []) : ∀ e ∈ r, ¬ Abbreviated name e := by
  intro e he habbreviated
  unfold longCandidates at h
  split at h
  · exact List.filter_eq_nil_iff.mp h e he ((abbreviated_iff name e).mpr habbreviated)
  · next hexact => exact hexact h

theorem mem_of_shortCandidates_eq {r : Registry} {name : String} {o : Opt}
    (h : r.shortCandidates name = [o]) : o ∈ r := by
  have hmem : o ∈ r.shortCandidates name := h ▸ List.mem_singleton_self o
  exact (mem_of_mem_shortCandidates hmem).1

theorem mem_of_longCandidates_eq {r : Registry} {name : String} {o : Opt}
    (h : r.longCandidates name = [o]) : o ∈ r := by
  have hmem : o ∈ r.longCandidates name := h ▸ List.mem_singleton_self o
  exact mem_of_mem_longCandidates hmem

/-- What a registration adds is one bare option, apart from all entries before it. -/
theorem Registers.exists_apart {mode : Mode} {r r' : Registry} (h : Registers mode r r') :
    ∃ o, r' = r ++ [o] ∧ o.Bare ∧ o.Apart r [] ∧ mode ≠ .strict := by
  have hstrict : mode.registersUnknown = true → mode ≠ .strict := by
    rintro hmode rfl
    cases hmode
  cases h with
  | @short name hmode hnew =>
    refine ⟨_, rfl, Opt.bare_ofShort name, ⟨?_, ?_⟩, hstrict hmode⟩
    · intro other hother e he hshort
      obtain rfl : name = other := Option.some.inj hother
      rw [List.append_nil] at he
      exact List.filter_eq_nil_iff.mp hnew e he (beq_iff_eq.mpr hshort)
    · intro other hother
      cases hother
  | @long name arity hmode harity hnew =>
    refine ⟨_, rfl, Opt.bare_ofLong name harity, ⟨?_, ?_⟩, hstrict hmode⟩
    · intro other hother
      cases hother
    · intro other hother
      obtain rfl : name = other := Option.some.inj hother
      exact not_abbreviated_of_longCandidates hnew

/-! ## Any number of registrations -/

/-- **`Grows mode r r'`**: registrations lead from `r` to `r'`, one after the other. -/
abbrev Grows (mode : Mode) : Registry → Registry → Prop := Relation.ReflTransGen (Registers mode)

/-- **`Additions mode r added`**: what holds of the entries that are added to `r` in some mode. -/
structure Additions (mode : Mode) (r : Registry) (added : List Opt) : Prop where
  /-- Each has one name only, takes at most one value, and is not given. -/
  bare : ∀ o ∈ added, o.Bare
  /-- Each is told apart from the others by its name. -/
  apart : ∀ before o after, added = before ++ o :: after → o.Apart (r ++ before) after
  /-- Where an unknown option is a fault, there is none. -/
  strict : mode = .strict → added = []

/-- **`Extends mode r r'`**: what a registry looks like after any number of registrations. -/
structure Extends (mode : Mode) (r r' : Registry) : Prop where
  /-- The old entries come first and are as they were; the new ones are told apart. -/
  additions : ∃ added, r' = r ++ added ∧ Additions mode r added
  /-- Names that were pairwise distinct still are. -/
  distinct : r.Distinct → r'.Distinct

theorem additions_nil (mode : Mode) (r : Registry) : Additions mode r [] where
  bare := by
    intro o ho
    cases ho
  apart := by
    intro before o after h
    cases before <;> cases h
  strict := fun _ => rfl

/-- One more entry, apart from all before it, also leaves those before it apart from all others. -/
theorem Additions.snoc {mode : Mode} {r : Registry} {added : List Opt} (h : Additions mode r added)
    {o : Opt} (hbare : o.Bare) (hapart : o.Apart (r ++ added) []) (hmode : mode ≠ .strict) :
    Additions mode r (added ++ [o]) where
  bare := by
    intro p hp
    rcases List.mem_append.mp hp with hp | hp
    · exact h.bare p hp
    · rw [List.mem_singleton.mp hp]
      exact hbare
  apart := by
    intro before p after heq
    -- the entry in question is the last one, or there is a shorter list that it stands in
    rcases List.eq_nil_or_concat after with rfl | ⟨rest, q, rfl⟩
    · obtain ⟨rfl, hlast⟩ := List.append_inj' heq rfl
      rw [List.cons.inj hlast |>.1] at hapart
      exact hapart
    · have heq' : added ++ [o] = (before ++ p :: rest) ++ [q] := by
        rw [heq, List.concat_eq_append, List.append_assoc, List.cons_append]
      obtain ⟨rfl, hlast⟩ := List.append_inj' heq' rfl
      obtain rfl : o = q := (List.cons.inj hlast).1
      obtain ⟨hshort, hlong⟩ := h.apart before p rest rfl
      refine ⟨?_, hlong⟩
      intro name hname e he
      rw [List.concat_eq_append, ← List.append_assoc] at he
      rcases List.mem_append.mp he with he | he
      · exact hshort name hname e he
      · rw [List.mem_singleton.mp he]
        intro ho
        refine hapart.short name ho p ?_ hname
        simp
  strict := fun hstrict => absurd hstrict hmode

theorem Additions.of_grows {mode : Mode} {r r' : Registry} (h : Grows mode r r') :
    ∃ added, r' = r ++ added ∧ Additions mode r added := by
  induction h with
  | refl => exact ⟨[], (List.append_nil r).symm, additions_nil mode r⟩
  | tail _ hstep ih =>
    obtain ⟨added, rfl, hadded⟩ := ih
    obtain ⟨o, rfl, hbare, hapart, hmode⟩ := hstep.exists_apart
    exact ⟨added ++ [o], List.append_assoc .., hadded.snoc hbare hapart hmode⟩

theorem Registers.distinct {mode : Mode} {r r' : Registry} (h : Registers mode r r')
    (hr : r.Distinct) : r'.Distinct := by
  obtain ⟨o, rfl, -, hapart, -⟩ := h.exists_apart
  refine List.pairwise_append.mpr ⟨hr, List.pairwise_singleton _ o, ?_⟩
  intro e he p hp
  rw [List.mem_singleton.mp hp]
  constructor
  · intro name hname ho
    exact hapart.short name ho e (List.mem_append_left [] he) hname
  · intro name hname ho
    exact hapart.long name ho e he ⟨name, hname, List.prefix_rfl⟩

/-- **What a registry looks like after any number of registrations.** -/
theorem extends_of_grows {mode : Mode} {r r' : Registry} (h : Grows mode r r') :
    Extends mode r r' where
  additions := Additions.of_grows h
  distinct := by
    intro hr
    induction h with
    | refl => exact hr
    | tail _ hstep ih => exact hstep.distinct ih

theorem Grows.subset {mode : Mode} {r r' : Registry} (h : Grows mode r r') : r ⊆ r' := by
  obtain ⟨added, rfl, -⟩ := Additions.of_grows h
  exact List.subset_append_left r added

theorem Lists.mono {mode : Mode} {r r' : Registry} {o : Opt} (h : r.Lists o)
    (hgrows : Grows mode r r') : r'.Lists o := by
  obtain ⟨e, he, hnames⟩ := h
  exact ⟨e, hgrows.subset he, hnames⟩

/-- Where an unknown option is a fault, a registry does not grow. -/
theorem Grows.eq_of_strict {r r' : Registry} (h : Grows .strict r r') : r' = r := by
  obtain ⟨added, rfl, hadded⟩ := Additions.of_grows h
  rw [hadded.strict rfl, List.append_nil]

end Registry

/-! ## Readers of one word -/

namespace Reading

/-- The options read, none after a fault. -/
def found (reading : Reading) : List Opt :=
  match reading.outcome with
  | .ok os => os
  | .error _ => []

/-- **`reading.Grounded mode r`**: from `r` the reading has only registered options, and those that it
found are in the registry it ends with. -/
structure Grounded (mode : Mode) (r : Registry) (reading : Reading) : Prop where
  grows : Registry.Grows mode r reading.registry
  listed : ∀ o ∈ reading.found, reading.registry.Lists o

theorem grounded_fail (mode : Mode) (r : Registry) (fault : OptionFault) (rest : List String) :
    (fail mode fault r rest).Grounded mode r where
  grows := .refl
  listed := by
    intro o ho
    cases ho

theorem grounded_nil (mode : Mode) (r : Registry) (rest : List String) :
    (ok [] r rest).Grounded mode r where
  grows := .refl
  listed := by
    intro o ho
    cases ho

theorem grounded_given (mode : Mode) {r : Registry} {o : Opt} (ho : o ∈ r) (v : Value)
    (rest : List String) : (ok [o.given v] r rest).Grounded mode r where
  grows := .refl
  listed := by
    intro p hp
    rw [List.mem_singleton.mp hp]
    exact Registry.lists_given ho v

theorem mem_found_precededBy {o p : Opt} {reading : Reading}
    (h : p ∈ (reading.precededBy o).found) : p = o ∨ p ∈ reading.found := by
  unfold found precededBy at h
  unfold found
  cases hout : reading.outcome with
  | error fault =>
    rw [hout] at h
    cases h
  | ok os =>
    rw [hout] at h
    exact List.mem_cons.mp h

/-- The leaves made of the options that were found are listed too. -/
theorem Grounded.lists_leaves {mode : Mode} {r : Registry} {reading : Reading}
    (h : reading.Grounded mode r) {os : List Opt} (hos : reading.outcome = .ok os) {o : Opt}
    (ho : .option o ∈ os.map Leaf.option) : reading.registry.Lists o := by
  obtain ⟨p, hp, hpo⟩ := List.mem_map.mp ho
  obtain rfl := Leaf.option.inj hpo
  apply h.listed p
  rw [found, hos]
  exact hp

theorem Grounded.precededBy {mode : Mode} {r r' : Registry} {reading : Reading} {o : Opt}
    (h : reading.Grounded mode r') (hgrows : Registry.Grows mode r r') (ho : r'.Lists o) :
    (reading.precededBy o).Grounded mode r where
  grows := hgrows.trans h.grows
  listed := by
    intro p hp
    rcases mem_found_precededBy hp with rfl | hp
    · exact ho.mono h.grows
    · exact h.listed p hp

end Reading

theorem Registry.lists_firstOccurrence (mode : Mode) (r : Registry) (o : Opt)
    (inline : Option String) : Registry.Lists (r ++ [o]) (mode.firstOccurrence o inline) := by
  obtain ⟨hshort, hlong, harity⟩ := mode.firstOccurrence_names o inline
  have hmem : o ∈ r ++ [o] := List.mem_append_right r (List.mem_singleton_self o)
  exact ⟨o, hmem, hshort.symm, hlong.symm, harity.symm⟩

theorem grounded_readLongValue (mode : Mode) {r : Registry} {o : Opt} (ho : o ∈ r)
    (inline : Option String) (rest : List String) :
    (readLongValue mode o inline r rest).Grounded mode r := by
  unfold readLongValue
  split
  · split
    · exact Reading.grounded_given mode ho _ _
    · exact Reading.grounded_given mode ho _ _
    · exact Reading.grounded_fail ..
  · split
    · exact Reading.grounded_fail ..
    · exact Reading.grounded_given mode ho _ _

theorem grounded_readLong (mode : Mode) (r : Registry) (words : List String) :
    (readLong mode r words).Grounded mode r := by
  fun_cases readLong mode r words with
  | case1 => exact Reading.grounded_nil ..
  | case2 word rest name hnew hmode o =>
    have harity : o.arity = 0 ∨ o.arity = 1 := by
      show (if _ then 1 else 0) = 0 ∨ (if _ then 1 else 0) = 1
      split
      · exact Or.inr rfl
      · exact Or.inl rfl
    refine ⟨.single (.long hmode harity hnew), ?_⟩
    intro p hp
    rw [List.mem_singleton.mp hp]
    exact Registry.lists_firstOccurrence ..
  | case3 => exact Reading.grounded_fail ..
  | case4 word rest name o hone =>
    exact grounded_readLongValue mode (Registry.mem_of_longCandidates_eq hone) _ _
  | case5 => exact Reading.grounded_fail ..

theorem grounded_readLetters (mode : Mode) (r : Registry) (rest : List String) (cs : List Char) :
    (readLetters mode r rest cs).Grounded mode r := by
  fun_induction readLetters mode r rest cs with
  | case1 => exact Reading.grounded_nil ..
  | case2 r c cs name hnew hmode o ih =>
    exact ih.precededBy (.single (.short hmode hnew)) (Registry.lists_firstOccurrence ..)
  | case3 => exact Reading.grounded_fail ..
  | case4 r c cs name o hone _ ih =>
    exact ih.precededBy .refl (Registry.lists_given (Registry.mem_of_shortCandidates_eq hone) _)
  | case5 r c name o hone _ d ds =>
    exact Reading.grounded_given mode (Registry.mem_of_shortCandidates_eq hone) _ _
  | case6 r c name o hone _ v rest =>
    exact Reading.grounded_given mode (Registry.mem_of_shortCandidates_eq hone) _ _
  | case7 => exact Reading.grounded_fail ..
  | case8 => exact Reading.grounded_fail ..

theorem grounded_readCluster (mode : Mode) (r : Registry) (words : List String) :
    (readCluster mode r words).Grounded mode r := by
  cases words with
  | nil => exact Reading.grounded_nil ..
  | cons word rest => exact grounded_readLetters ..

/-- **`Session mode r os r'`**: calls of the two readers, one after the other and each on whatever words
there are, lead from `r` to `r'`; `os` are the options found on the way. A call that meets a fault
finds none, and the calls after it go on with the registry that it leaves. -/
inductive Session (mode : Mode) (r : Registry) : List Opt → Registry → Prop
  | start : Session mode r [] r
  | long {os : List Opt} {r' : Registry} (h : Session mode r os r') (words : List String) :
      Session mode r (os ++ (readLong mode r' words).found) (readLong mode r' words).registry
  | cluster {os : List Opt} {r' : Registry} (h : Session mode r os r') (words : List String) :
      Session mode r (os ++ (readCluster mode r' words).found) (readCluster mode r' words).registry

/-- A grounded reading goes on from what is grounded already. -/
theorem Reading.Grounded.after {mode : Mode} {r r' : Registry} {os : List Opt} {reading : Reading}
    (h : reading.Grounded mode r') (hgrows : Registry.Grows mode r r')
    (hos : ∀ o ∈ os, r'.Lists o) :
    Registry.Grows mode r reading.registry ∧
      ∀ o ∈ os ++ reading.found, reading.registry.Lists o := by
  refine ⟨hgrows.trans h.grows, ?_⟩
  intro o ho
  rcases List.mem_append.mp ho with ho | ho
  · exact (hos o ho).mono h.grows
  · exact h.listed o ho

theorem grows_of_session {mode : Mode} {r r' : Registry} {os : List Opt}
    (h : Session mode r os r') : Registry.Grows mode r r' ∧ ∀ o ∈ os, r'.Lists o := by
  induction h with
  | start =>
    refine ⟨.refl, ?_⟩
    intro o ho
    cases ho
  | long _ words ih => exact (grounded_readLong ..).after ih.1 ih.2
  | cluster _ words ih => exact (grounded_readCluster ..).after ih.1 ih.2

/-! ## Readers of an invocation -/

/-- **`i.Grounded mode r`**: from `r` the invocation has only registered options, and those among its
leaves are in the registry it ends with. -/
structure Invocation.Grounded (mode : Mode) (r : Registry) (i : Invocation) : Prop where
  grows : Registry.Grows mode r i.registry
  listed : ∀ leaves, i.outcome = .ok leaves → ∀ o, .option o ∈ leaves → i.registry.Lists o

theorem Invocation.grounded_positionals (mode : Mode) (r : Registry) (words : List String) :
    Invocation.Grounded mode r ⟨.ok (words.map Leaf.positional), r⟩ where
  grows := .refl
  listed := by
    intro leaves hleaves o ho
    obtain rfl := Except.ok.inj hleaves
    obtain ⟨w, _, hw⟩ := List.mem_map.mp ho
    cases hw

theorem Invocation.grounded_error {mode : Mode} {r r' : Registry} (failure : Failure)
    (h : Registry.Grows mode r r') : Invocation.Grounded mode r ⟨.error failure, r'⟩ where
  grows := h
  listed := by
    intro leaves hleaves
    cases hleaves

/-- Options that a grounded reading found may stand in front of a grounded invocation. -/
theorem Invocation.Grounded.precededBy {mode : Mode} {r : Registry} {i : Invocation}
    {reading : Reading} (h : i.Grounded mode reading.registry) (hreading : reading.Grounded mode r)
    {os : List Opt} (hos : reading.outcome = .ok os) :
    (i.precededBy (os.map Leaf.option)).Grounded mode r where
  grows := hreading.grows.trans h.grows
  listed := by
    intro leaves hleaves o ho
    obtain ⟨rest, hrest, rfl⟩ := outcome_precededBy hleaves
    rcases List.mem_append.mp ho with ho | ho
    · exact (hreading.lists_leaves hos ho).mono h.grows
    · exact h.listed rest hrest o ho

theorem grounded_readInvocation (mode : Mode) (r : Registry) (words : List String) :
    (readInvocation mode r words).Grounded mode r := by
  fun_induction readInvocation mode r words with
  | case1 r => exact Invocation.grounded_positionals mode r []
  | case2 r word rest _ => exact Invocation.grounded_positionals mode r (word :: rest)
  | case3 r word rest _ reading os hos ih => exact ih.precededBy (grounded_readLong ..) hos
  | case4 r word rest _ reading failure _ =>
    exact Invocation.grounded_error failure (grounded_readLong ..).grows
  | case5 r word rest _ reading os hos ih => exact ih.precededBy (grounded_readCluster ..) hos
  | case6 r word rest _ reading failure _ =>
    exact Invocation.grounded_error failure (grounded_readCluster ..).grows
  | case7 r word rest _ ih =>
    refine ⟨ih.grows, ?_⟩
    intro leaves hleaves o ho
    obtain ⟨ls, hls, rfl⟩ := outcome_precededBy hleaves
    rcases List.mem_cons.mp ho with ho | ho
    · cases ho
    · exact ih.listed ls hls o ho

/-! ## Readers of a usage pattern -/

/-- **`d.Grounded mode r`**: read in this mode, the draft has from `r` only registered options, and those
in its slots are in its registry. -/
structure Draft.Grounded (mode : Mode) (r : Registry) (d : Draft) : Prop where
  mode_eq : d.mode = mode
  grows : Registry.Grows mode r d.registry
  listed : ∀ o, .option o ∈ d.slots → d.registry.Lists o

/-- The draft that a step leads to is grounded; after a fault it is its registry that counts. -/
def Progress.Grounded (mode : Mode) (r : Registry) : Progress → Prop
  | more d _ => d.Grounded mode r
  | stop _ registry => Registry.Grows mode r registry

namespace Draft

variable {mode : Mode} {r : Registry} {d : Draft}

theorem Grounded.withSlots (hd : d.Grounded mode r) {leaves : List Leaf}
    (hleaves : ∀ o, .option o ∈ leaves → d.registry.Lists o) : (d.withSlots leaves).Grounded mode r where
  mode_eq := hd.mode_eq
  grows := hd.grows
  listed := by
    intro o ho
    rcases List.mem_append.mp ho with ho | ho
    · exact hd.listed o ho
    · exact hleaves o ho

theorem Grounded.takeAtoms (hd : d.Grounded mode r) (atoms : List (Pattern Nat)) (rest : List String) :
    (d.takeAtoms atoms rest).Grounded mode r :=
  ⟨hd.mode_eq, hd.grows, hd.listed⟩

/-- A leaf that is no option asks nothing of the registry. -/
theorem Grounded.takeLeaf (hd : d.Grounded mode r) {l : Leaf} (hl : l.isOption = false)
    (rest : List String) : (d.takeLeaves [l] rest).Grounded mode r := by
  refine (hd.withSlots ?_).takeAtoms _ _
  intro o ho
  rw [← List.mem_singleton.mp ho] at hl
  cases hl

theorem Grounded.takeOptions (hd : d.Grounded mode r) {reading : Reading}
    (hreading : reading.Grounded mode d.registry) : (d.takeOptions reading).Grounded mode r := by
  have hgrows := hd.grows.trans hreading.grows
  unfold Draft.takeOptions
  split
  · next os hos =>
    have hmoved : Draft.Grounded mode r { d with registry := reading.registry } :=
      ⟨hd.mode_eq, hgrows, fun o ho => (hd.listed o ho).mono hreading.grows⟩
    exact (hmoved.withSlots fun o ho => hreading.lists_leaves hos ho).takeAtoms _ _
  · exact hgrows

theorem Grounded.openBracket (hd : d.Grounded mode r) (b : Bracket) (rest : List String) :
    (d.openBracket b rest).Grounded mode r := by
  unfold Draft.openBracket
  split
  · unfold takeAnyOptions
    split
    · refine (hd.withSlots ?_).takeAtoms _ _
      intro o ho
      cases List.mem_singleton.mp ho
    · exact hd.grows
  · exact ⟨hd.mode_eq, hd.grows, hd.listed⟩

theorem Grounded.closeBracket (hd : d.Grounded mode r) (b : Bracket) (token : String)
    (rest : List String) : (d.closeBracket b token rest).Grounded mode r := by
  unfold Draft.closeBracket
  split
  · exact hd.grows
  · split
    · exact ⟨hd.mode_eq, hd.grows, hd.listed⟩
    · exact hd.grows

/-- One step of reading a usage pattern. -/
theorem Grounded.advance (hd : d.Grounded mode r) (token : String) (rest : List String) :
    (d.advance token rest).Grounded mode r := by
  unfold Draft.advance
  split
  · exact hd.openBracket ..
  · exact hd.closeBracket ..
  · exact ⟨hd.mode_eq, hd.grows, hd.listed⟩
  · rw [hd.mode_eq]
    exact hd.takeOptions (grounded_readLong ..)
  · rw [hd.mode_eq]
    exact hd.takeOptions (grounded_readCluster ..)
  · exact hd.takeLeaf rfl rest
  · exact hd.takeLeaf rfl rest

/-- A whole run, to its end or to a fault. -/
theorem Grounded.run (hd : d.Grounded mode r) (tokens : List String) :
    Registry.Grows mode r (d.run tokens).registry ∧
      ∀ t, (d.run tokens).outcome = .ok t →
        ∀ o, .option o ∈ t.slots → (d.run tokens).registry.Lists o := by
  fun_induction Draft.run d tokens with
  | case1 d =>
    unfold finish
    split
    · refine ⟨hd.grows, ?_⟩
      intro t ht
      obtain rfl := Except.ok.inj ht
      exact hd.listed
    · refine ⟨hd.grows, ?_⟩
      intro t ht
      cases ht
  | case2 d token rest d' rest' hadvance ih =>
    have hstep := hd.advance token rest
    rw [hadvance] at hstep
    exact ih hstep
  | case3 d token rest failure registry hadvance =>
    have hstep := hd.advance token rest
    rw [hadvance] at hstep
    refine ⟨hstep, ?_⟩
    intro t ht
    cases ht

end Draft

theorem grows_parsePattern (r : Registry) (source : String) :
    Registry.Grows .grammar r (parsePattern r source).registry ∧
      ∀ t, (parsePattern r source).outcome = .ok t →
        ∀ o, .option o ∈ t.slots → (parsePattern r source).registry.Lists o := by
  have hstart : (Draft.start .grammar r).Grounded .grammar r := by
    refine ⟨rfl, .refl, ?_⟩
    intro o ho
    cases ho
  exact hstart.run _

/-- An option in its place in a tree is in a slot. -/
theorem Tree.option_mem_slots {t : Tree} {o : Opt} (h : .option o ∈ t.leaves) :
    .option o ∈ t.slots := by
  obtain ⟨i, _, hi⟩ := List.mem_map.mp h
  rw [Tree.leafAt, List.getD_eq_getElem?_getD] at hi
  cases hslot : t.slots[i]? with
  | none =>
    rw [hslot] at hi
    cases hi
  | some l =>
    rw [hslot] at hi
    obtain rfl : l = .option o := hi
    exact List.mem_of_getElem? hslot

/-- **A registry grows only by options that were unknown, and all that is read is in it.** Whatever the
readers are given and whether or not they meet a fault: the entries there were stay as they were and in
front; each new one has a single name, takes at most one value and is told apart from all others; nothing
is added where an unknown option is a fault; and every option read agrees with an entry in all but its
value. This holds of any calls of the readers of one word, of an invocation, and of a usage pattern. -/
theorem Registry.extends_by_readers (mode : Mode) (r : Registry) :
    (∀ os r', Session mode r os r' → Extends mode r r' ∧ ∀ o ∈ os, r'.Lists o) ∧
    (∀ words, Extends mode r (readInvocation mode r words).registry ∧
      ∀ leaves, (readInvocation mode r words).outcome = .ok leaves →
        ∀ o, .option o ∈ leaves → (readInvocation mode r words).registry.Lists o) ∧
    (∀ source, Extends .grammar r (parsePattern r source).registry ∧
      ∀ t, (parsePattern r source).outcome = .ok t →
        ∀ o, .option o ∈ t.slots ∨ .option o ∈ t.leaves →
          (parsePattern r source).registry.Lists o) := by
  refine ⟨?_, ?_, ?_⟩
  · intro os r' h
    obtain ⟨hgrows, hlisted⟩ := grows_of_session h
    exact ⟨extends_of_grows hgrows, hlisted⟩
  · intro words
    obtain ⟨hgrows, hlisted⟩ := grounded_readInvocation mode r words
    exact ⟨extends_of_grows hgrows, hlisted⟩
  · intro source
    obtain ⟨hgrows, hlisted⟩ := grows_parsePattern r source
    refine ⟨extends_of_grows hgrows, ?_⟩
    rintro t ht o (ho | ho)
    · exact hlisted t ht o ho
    · exact hlisted t ht o (Tree.option_mem_slots ho)

/-- An abbreviation that fits two entries is a fault, and what the cluster before it has taken up stays:
the calls go on with it. -/
theorem Registry.extends_by_readers_sample :
    let r : Registry := [.ofLong "--verbose" 0, .ofLong "--version" 0]
    let r' : Registry := r ++ [.ofShort "-x", .ofLong "--out" 1]
    Session .lenient r
        [⟨some "-x", none, 0, .bool true⟩, ⟨none, some "--out", 1, .str "f"⟩] r' ∧
      Extends .lenient r r' ∧
      ∀ o ∈ ([⟨some "-x", none, 0, .bool true⟩, ⟨none, some "--out", 1, .str "f"⟩] : List Opt),
        r'.Lists o := by
  intro r r'
  have h : Session .lenient r
      [⟨some "-x", none, 0, .bool true⟩, ⟨none, some "--out", 1, .str "f"⟩] r' :=
    .long (.long (.cluster .start ["-x"]) ["--ver"]) ["--out=f"]
  exact ⟨h, (Registry.extends_by_readers .lenient r).1 _ _ h⟩

end Synopsis
