import Synopsis.Proofs.Report

/-!
# Strict and lenient reading

A strict and a lenient reader of invocations differ in one place: at an option to which no entry of the
registry answers. There the strict reader stops, and the lenient one registers the option and goes on.
`Parts` says what the two are left with after such a place. A registration is never taken back, so once the
readers have parted the lenient one ends with a longer registry, whatever it reads afterwards.

For each reader there are only two cases: the readers agree in all that they return, or they have parted
(`readLong_eq_or_parts`, `readCluster_eq_or_parts`, `readInvocation_eq_or_parts`). Hence each of the two
outcomes tells on its own whether they agree (`parse_register_eq_of_reject`).
-/

namespace Synopsis

/-- **`Parts r outcome registry`**: a strict reader has stopped at an option that is unknown in `r`, and a
lenient one has ended with more options than `r` has. -/
structure Parts {α : Type} (r : Registry) (outcome : Except Failure α) (registry : Registry) :
    Prop where
  unknown : ∃ name, outcome = .error (.invocation (OptionFault.unrecognized name).message)
  grown : r.length < registry.length

namespace Parts

variable {α : Type} {r registry : Registry} {outcome : Except Failure α}

theorem registry_ne (h : Parts r outcome registry) : registry ≠ r := by
  rintro rfl
  exact Nat.lt_irrefl _ h.grown

/-- What a strict reader would have read before the fault does not count. -/
theorem map {β : Type} (h : Parts r outcome registry) (f : α → β) :
    Parts r (outcome.map f) registry := by
  obtain ⟨⟨name, rfl⟩, hgrown⟩ := h
  exact ⟨⟨name, rfl⟩, hgrown⟩

end Parts

/-- A registry never gets shorter. -/
theorem Registry.Grows.length_le {mode : Mode} {r r' : Registry} (h : Registry.Grows mode r r') :
    r.length ≤ r'.length := by
  obtain ⟨added, rfl, -⟩ := Registry.Additions.of_grows h
  rw [List.length_append]
  omega

/-! ## Readers of one word -/

theorem readLong_eq_or_parts (r : Registry) (words : List String) :
    readLong .lenient r words = readLong .strict r words ∨
      Parts r (readLong .strict r words).outcome (readLong .lenient r words).registry := by
  cases words with
  | nil => exact Or.inl rfl
  | cons word rest =>
    simp only [readLong]
    split
    · -- no entry answers to the name
      refine Or.inr ⟨⟨longName word, rfl⟩, ?_⟩
      show r.length < (r ++ [_]).length
      rw [List.length_append, List.length_singleton]
      omega
    · exact Or.inl rfl
    · exact Or.inl rfl

/-- After a flag the letters that are left decide whether the readers part. -/
theorem precededBy_eq_or_parts {r : Registry} {strict lenient : Reading}
    (h : lenient = strict ∨ Parts r strict.outcome lenient.registry) (o : Opt) :
    lenient.precededBy o = strict.precededBy o ∨
      Parts r (strict.precededBy o).outcome (lenient.precededBy o).registry := by
  rcases h with rfl | hparts
  · exact Or.inl rfl
  · exact Or.inr (hparts.map (o :: ·))

theorem readLetters_eq_or_parts (r : Registry) (rest : List String) (cs : List Char) :
    readLetters .lenient r rest cs = readLetters .strict r rest cs ∨
      Parts r (readLetters .strict r rest cs).outcome
        (readLetters .lenient r rest cs).registry := by
  induction cs with
  | nil => exact Or.inl rfl
  | cons c cs ih =>
    simp only [readLetters]
    split
    · refine Or.inr ⟨⟨shortName c, rfl⟩, ?_⟩
      -- the flag is registered, and the letters after it take nothing away
      have hlength := (grounded_readLetters .lenient (r ++ [Opt.ofShort (shortName c)]) rest
        cs).grows.length_le
      rw [List.length_append, List.length_singleton] at hlength
      exact hlength
    · split
      · exact precededBy_eq_or_parts ih _
      · exact Or.inl rfl
    · exact Or.inl rfl

theorem readCluster_eq_or_parts (r : Registry) (words : List String) :
    readCluster .lenient r words = readCluster .strict r words ∨
      Parts r (readCluster .strict r words).outcome (readCluster .lenient r words).registry := by
  cases words with
  | nil => exact Or.inl rfl
  | cons word rest => exact readLetters_eq_or_parts r rest _

/-! ## Readers of an invocation -/

/-- What reading goes on to after one word was read as options. -/
def Reading.resume (mode : Mode) (reading : Reading) : Invocation :=
  match reading.outcome with
  | .ok os => (readInvocation mode reading.registry reading.rest).precededBy (os.map Leaf.option)
  | .error failure => ⟨.error failure, reading.registry⟩

theorem readInvocation_long {mode : Mode} {r : Registry} {word : String} {rest : List String}
    (h : WordKind.of word = .long) :
    readInvocation mode r (word :: rest) = (readLong mode r (word :: rest)).resume mode := by
  rw [readInvocation]
  simp only [h]
  rfl

theorem readInvocation_cluster {mode : Mode} {r : Registry} {word : String} {rest : List String}
    (h : WordKind.of word = .cluster) :
    readInvocation mode r (word :: rest) = (readCluster mode r (word :: rest)).resume mode := by
  rw [readInvocation]
  simp only [h]
  rfl

theorem length_registry_resume (mode : Mode) (reading : Reading) :
    reading.registry.length ≤ (reading.resume mode).registry.length := by
  unfold Reading.resume
  split
  · exact (grounded_readInvocation mode reading.registry reading.rest).grows.length_le
  · exact Nat.le_refl _

/-- Readers that part at a word stay apart; readers that agree on it go on with the same words and the
same registry. -/
theorem resume_eq_or_parts {r : Registry} {strict lenient : Reading}
    (h : lenient = strict ∨ Parts r strict.outcome lenient.registry)
    (hrest : ∀ os, strict.outcome = .ok os →
      readInvocation .lenient strict.registry strict.rest =
          readInvocation .strict strict.registry strict.rest ∨
        Parts r (readInvocation .strict strict.registry strict.rest).outcome
          (readInvocation .lenient strict.registry strict.rest).registry) :
    lenient.resume .lenient = strict.resume .strict ∨
      Parts r (strict.resume .strict).outcome (lenient.resume .lenient).registry := by
  rcases h with rfl | hparts
  · unfold Reading.resume
    split
    · next os hos =>
      rcases hrest os hos with heq | hparts
      · rw [heq]
        exact Or.inl rfl
      · exact Or.inr (hparts.map (os.map Leaf.option ++ ·))
    · exact Or.inl rfl
  · obtain ⟨name, hname⟩ := hparts.unknown
    refine Or.inr ⟨⟨name, ?_⟩, ?_⟩
    · simp only [Reading.resume, hname]
    · exact Nat.lt_of_lt_of_le hparts.grown (length_registry_resume .lenient lenient)

/-- Two readers of an invocation agree, or they have parted at an unknown option. -/
theorem readInvocation_eq_or_parts (r : Registry) (words : List String) :
    readInvocation .lenient r words = readInvocation .strict r words ∨
      Parts r (readInvocation .strict r words).outcome
        (readInvocation .lenient r words).registry := by
  induction hlength : words.length using Nat.strong_induction_on generalizing words with
  | _ n ih =>
    subst hlength
    cases words with
    | nil => exact Or.inl (by rw [readInvocation, readInvocation])
    | cons word rest =>
      cases hkind : WordKind.of word with
      | separator =>
        rw [readInvocation, readInvocation]
        simp only [hkind, true_or]
      | long =>
        rw [readInvocation_long hkind, readInvocation_long hkind]
        refine resume_eq_or_parts (readLong_eq_or_parts r _) fun _ _ => ?_
        rw [registry_readLong_strict]
        exact ih _ (length_rest_readLong ..) _ rfl
      | cluster =>
        rw [readInvocation_cluster hkind, readInvocation_cluster hkind]
        refine resume_eq_or_parts (readCluster_eq_or_parts r _) fun _ _ => ?_
        have hregistry : (readCluster .strict r (word :: rest)).registry = r :=
          registry_readLetters_strict ..
        rw [hregistry]
        exact ih _ (length_rest_readCluster ..) _ rfl
      | plain =>
        rw [readInvocation, readInvocation]
        simp only [hkind]
        rcases ih _ (Nat.lt_succ_self rest.length) rest rfl with heq | hparts
        · rw [heq]
          exact Or.inl rfl
        · exact Or.inr (hparts.map ([Leaf.positional word] ++ ·))

/-! ## Interfaces -/

namespace Interface

/-- The policy counts only for how an invocation is read: what is read alike is answered alike. -/
theorem parse_withPolicy_of_readInvocation {i : Interface} {policy : UnknownPolicy}
    {words : List String}
    (h : readInvocation policy.mode i.options words =
      readInvocation i.settings.mode i.options words) :
    (i.withPolicy policy).parse words = i.parse words := by
  have hmode : (i.withPolicy policy).settings.mode = policy.mode := rfl
  have hoptions : (i.withPolicy policy).options = i.options := rfl
  rw [parse, parse, hmode, hoptions, h]
  split <;> rfl

/-- **Strict and lenient readers agree except on unknown options.** Unless the strict reader stops at an
option that it does not know, the lenient one returns the same, leaves or fault, and has registered
nothing; and whenever the lenient reader has registered nothing, the strict one returns the same. So
where unknown options are faults, any result but such a fault is also the result where they are taken
up. -/
theorem parse_register_eq_of_reject :
    (∀ (r : Registry) (words : List String),
      (∀ name, (readInvocation .strict r words).outcome ≠
        .error (.invocation (OptionFault.unrecognized name).message)) →
        readInvocation .lenient r words = readInvocation .strict r words ∧
          (readInvocation .lenient r words).registry = r) ∧
    (∀ (r : Registry) (words : List String), (readInvocation .lenient r words).registry = r →
      readInvocation .strict r words = readInvocation .lenient r words) ∧
    ∀ (i : Interface) (words : List String), i.settings.policy = .reject →
      (∀ name, i.parse words ≠ .error (.invocation (OptionFault.unrecognized name).message)) →
        (i.withPolicy .register).parse words = i.parse words := by
  have hagree : ∀ (r : Registry) (words : List String),
      (∀ name, (readInvocation .strict r words).outcome ≠
        .error (.invocation (OptionFault.unrecognized name).message)) →
        readInvocation .lenient r words = readInvocation .strict r words := by
    intro r words hknown
    rcases readInvocation_eq_or_parts r words with heq | hparts
    · exact heq
    · obtain ⟨name, hname⟩ := hparts.unknown
      exact absurd hname (hknown name)
  refine ⟨?_, ?_, ?_⟩
  · intro r words hknown
    refine ⟨hagree r words hknown, ?_⟩
    rw [hagree r words hknown]
    exact (grounded_readInvocation .strict r words).grows.eq_of_strict
  · intro r words hregistry
    rcases readInvocation_eq_or_parts r words with heq | hparts
    · exact heq.symm
    · exact absurd hregistry hparts.registry_ne
  · intro i words hpolicy hparse
    apply parse_withPolicy_of_readInvocation
    rw [mode_eq_strict hpolicy]
    refine hagree i.options words fun name hname => hparse name ?_
    -- the failure of the reader is what the interface reports
    rw [parse, mode_eq_strict hpolicy]
    simp only [hname]

/-- That a value is missing is not said in the words for an unknown option. -/
theorem missingArgument_ne_unrecognized (name name' : String) :
    (OptionFault.missingArgument name).message ≠ (OptionFault.unrecognized name').message := by
  intro h
  have hlast := congrArg (fun s => s.toList.getLast?) h
  simp [OptionFault.message, String.toList_append] at hlast

/-- The last word lacks its value, which both readers report; with a value they bind the same, and the
flag that is not given keeps its place. -/
theorem parse_register_eq_of_sender :
    let lacking := ["-q", "a", "--to"]
    let whole := ["a", "--t", "-q"]
    let b : Bindings := ⟨[("--to", .str "-q"), ("-q", .bool false), ("N", .str "a")]⟩
    (readInvocation .strict sender.options lacking).outcome =
        .error (.invocation (OptionFault.missingArgument "--to").message) ∧
      readInvocation .lenient sender.options lacking =
        readInvocation .strict sender.options lacking ∧
      (readInvocation .lenient sender.options lacking).registry = sender.options ∧
      readInvocation .strict sender.options lacking =
        readInvocation .lenient sender.options lacking ∧
      sender.settings.policy = .reject ∧ sender.parse whole = .ok b ∧
      (sender.withPolicy .register).parse whole = sender.parse whole := by
  intro lacking whole b
  have hlacking : (readInvocation .strict sender.options lacking).outcome =
      .error (.invocation (OptionFault.missingArgument "--to").message) := by cbv
  have hwhole : sender.parse whole = .ok b := by cbv
  obtain ⟨heq, hregistry⟩ := parse_register_eq_of_reject.1 sender.options lacking (by
    intro name hname
    rw [hlacking] at hname
    exact missingArgument_ne_unrecognized _ _ (Failure.invocation.inj (Except.error.inj hname)))
  refine ⟨hlacking, heq, hregistry, ?_, rfl, hwhole, ?_⟩
  · exact parse_register_eq_of_reject.2.1 sender.options lacking hregistry
  · refine parse_register_eq_of_reject.2.2 sender whole rfl fun name hname => ?_
    rw [hwhole] at hname
    cases hname

end Interface

end Synopsis
