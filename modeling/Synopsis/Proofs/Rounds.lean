import Synopsis.Proofs.Equations

/-!
# The rounds of a repetition

A repetition calls its matcher round by round. It stops after a round that fails, and after one that
leaves just what the round before it left; the first round has none before it and is exempt. Written
down like that (`Matcher.Rounds`), nothing says that the rounds ever stop, and of an arbitrary matcher
they need not.

They do if the matcher does nothing where it takes nothing (`Matcher.Progresses`), as the matcher of
any pattern does: then every round from the second on leaves fewer leaves or is the last
(`Matcher.exists_rounds`). So the rounds of a repetition in a tree are at most two more than the
leaves that it starts from, they end where the repetition says, and there one more round would change
nothing (`Tree.rounds_oneOrMore`).
-/

namespace Synopsis

namespace Matcher

/-- **`Rounds m previous s calls u`**: rounds of `m` that go on from `s` stop in `u`. What the round
before left is `previous`, if there was one, and `calls` are the states from which `m` is called, one
for each round. Rounds that never stop are in no such relation. -/
inductive Rounds (m : Matcher) :
    Option (List Leaf) → MatchState → List MatchState → MatchState → Prop
  | fails {previous : Option (List Leaf)} {s : MatchState} (h : (m s).matched = false) :
      Rounds m previous s [s] s
  | idles {previous : Option (List Leaf)} {s : MatchState} (h : (m s).matched = true)
      (hsame : previous = some (m s).left) : Rounds m previous s [s] (m s).toMatchState
  | goesOn {previous : Option (List Leaf)} {s u : MatchState} {calls : List MatchState}
      (h : (m s).matched = true) (hother : previous ≠ some (m s).left)
      (hrest : Rounds m (some (m s).left) (m s).toMatchState calls u) :
      Rounds m previous s (s :: calls) u

/-- Each round decides what comes after it, so rounds can stop in one way only. -/
theorem Rounds.unique {m : Matcher} {previous : Option (List Leaf)} {s u u' : MatchState}
    {calls calls' : List MatchState} (h : Rounds m previous s calls u)
    (h' : Rounds m previous s calls' u') : calls' = calls ∧ u' = u := by
  induction h generalizing calls' u' with
  | fails hfail =>
    cases h' with
    | fails => exact ⟨rfl, rfl⟩
    | idles hfit => exact absurd hfit (Bool.eq_false_iff.mp hfail)
    | goesOn hfit => exact absurd hfit (Bool.eq_false_iff.mp hfail)
  | idles hfit hsame =>
    cases h' with
    | fails hfail => exact absurd hfit (Bool.eq_false_iff.mp hfail)
    | idles => exact ⟨rfl, rfl⟩
    | goesOn _ hother => exact absurd hsame hother
  | goesOn hfit hother _ ih =>
    cases h' with
    | fails hfail => exact absurd hfit (Bool.eq_false_iff.mp hfail)
    | idles _ hsame => exact absurd hsame hother
    | goesOn _ _ hrest =>
      obtain ⟨rfl, rfl⟩ := ih hrest
      exact ⟨rfl, rfl⟩

variable {m : Matcher}

/-- A matcher that fits and does nothing is called twice: only the second round has one before it to be
compared with. -/
theorem rounds_of_eq_success {s : MatchState} (h : m s = .success s) : Rounds m none s [s, s] s := by
  have hfit : (m s).matched = true := congrArg Outcome.matched h
  have hstate : (m s).toMatchState = s := congrArg Outcome.toMatchState h
  refine .goesOn hfit (Option.some_ne_none _).symm ?_
  rw [hstate]
  have hlast : Rounds m (some s.left) s [s] (m s).toMatchState := .idles hfit (by rw [hstate])
  rwa [hstate] at hlast

/-- **The rounds after one that left the leaves of `s`.** Each but the last leaves fewer leaves, so
there is at most one round more than there are leaves. Any matcher that answers these calls alike has
the same rounds. -/
theorem exists_rounds (hm : m.Progresses) (s : MatchState) :
    ∃ calls, Rounds m (some s.left) s calls (exhaust m s) ∧ calls.length ≤ s.left.length + 1 ∧
      ∀ n : Matcher, (∀ c ∈ calls, n c = m c) → exhaust n s = exhaust m s := by
  fun_induction exhaust m s with
  | case1 s hfit hlt ih =>
    obtain ⟨calls, hrest, hlength, halike⟩ := ih
    have hother : some s.left ≠ some (m s).left := by
      intro hsame
      rw [Option.some.inj hsame] at hlt
      exact Nat.lt_irrefl _ hlt
    refine ⟨s :: calls, .goesOn hfit hother hrest, ?_, ?_⟩
    · rw [List.length_cons]
      omega
    · intro n hn
      obtain ⟨hround, hcalls⟩ := List.forall_mem_cons.mp hn
      rw [exhaust_of_lt (by rwa [hround]) (by rwa [hround]), hround]
      exact halike n hcalls
  | case2 s hfit hlt =>
    -- the round took nothing, so it did nothing and left what the round before left
    have hsame : (m s).toMatchState = s := (hm s hfit).resolve_right hlt
    refine ⟨[s], .idles hfit (by rw [hsame]), ?_, ?_⟩
    · rw [List.length_singleton]
      omega
    · intro n hn
      have hround := hn s List.mem_cons_self
      rw [exhaust_of_not_lt (by rwa [hround]) (by rwa [hround]), hround]
  | case3 s hfit =>
    refine ⟨[s], .fails (Bool.eq_false_iff.mpr hfit), ?_, ?_⟩
    · rw [List.length_singleton]
      omega
    · intro n hn
      have hround := hn s List.mem_cons_self
      rw [exhaust_of_not_matched (by rwa [hround])]

/-- The rounds of a repetition from its first round on. -/
theorem exists_rounds_of_many (hm : m.Progresses) (s : MatchState) :
    ∃ calls u, Rounds m none s calls u ∧ calls.length ≤ s.left.length + 2 ∧
      (many m s = if (m s).matched then .success u else .failure s) ∧
      ∀ n : Matcher, (∀ c ∈ calls, n c = m c) → many n s = many m s := by
  by_cases hfit : (m s).matched = true
  · obtain ⟨calls, hrest, hlength, halike⟩ := exists_rounds hm (m s).toMatchState
    have hleft : (m s).left.length ≤ s.left.length := by
      rcases hm s hfit with hsame | hlt
      · rw [hsame]
      · exact Nat.le_of_lt hlt
    have hfirst : none ≠ some (m s).left := (Option.some_ne_none _).symm
    refine ⟨s :: calls, exhaust m (m s).toMatchState, .goesOn hfit hfirst hrest, ?_, ?_, ?_⟩
    · rw [List.length_cons]
      omega
    · rw [many_of_matched hfit, if_pos hfit]
    · intro n hn
      obtain ⟨hround, hcalls⟩ := List.forall_mem_cons.mp hn
      rw [many_of_matched (by rwa [hround]), many_of_matched hfit, hround, halike n hcalls]
  · refine ⟨[s], s, .fails (Bool.eq_false_iff.mpr hfit), ?_, ?_, ?_⟩
    · rw [List.length_singleton]
      omega
    · rw [many_of_not_matched hfit, if_neg hfit]
    · intro n hn
      have hround := hn s List.mem_cons_self
      rw [many_of_not_matched (by rwa [hround]), many_of_not_matched hfit]

/-- Where a repetition that fits ends, one more round fails or does nothing. -/
theorem many_of_again (hm : m.Progresses) {s : MatchState} (h : (many m s).matched = true)
    (hagain : (m (many m s).toMatchState).matched = true) :
    m (many m s).toMatchState = .success (many m s).toMatchState := by
  rw [matched_many] at h
  rw [many_of_matched h, Outcome.state_success] at hagain ⊢
  show Outcome.mk (m _).toMatchState (m _).matched = ⟨_, true⟩
  rw [state_exhaust hm _ hagain, hagain]

end Matcher

namespace Tree

/-- **A repetition stops, and goes as far as it can.** For any child in any tree, and from any leaves and
bindings, the rounds of the child stop, and in one way only. The child is called at most two times more
than there are leaves, and the outcome of the repetition depends on the outcomes of these calls only. The
repetition fits if the first call does, and then it ends where the rounds stop. There, one more call of
the child would fail, or fit and change neither leaves nor bindings. -/
theorem rounds_oneOrMore (t : Tree) (child : Pattern Nat) (left collected : List Leaf) :
    (∃ calls u,
      (∀ calls' u', Matcher.Rounds (fun s => t.matchNode child s.left s.collected) none
        ⟨left, collected⟩ calls' u' ↔ calls' = calls ∧ u' = u) ∧
      calls.length ≤ left.length + 2 ∧
      (t.matchNode (.oneOrMore child) left collected =
        if (t.matchNode child left collected).matched then .success u
        else .failure ⟨left, collected⟩) ∧
      ∀ n : Matcher, (∀ s ∈ calls, n s = t.matchNode child s.left s.collected) →
        Matcher.many n ⟨left, collected⟩ = t.matchNode (.oneOrMore child) left collected) ∧
    ∀ l c, t.matchNode (.oneOrMore child) left collected = .success ⟨l, c⟩ →
      (t.matchNode child l c).matched = false ∨ t.matchNode child l c = .success ⟨l, c⟩ := by
  have hchild : (t.resolve child).matcher.Progresses := child.progresses_matcher t.leafAt
  constructor
  · obtain ⟨calls, u, hrounds, hlength, hmany, halike⟩ :=
      Matcher.exists_rounds_of_many hchild ⟨left, collected⟩
    refine ⟨calls, u, ?_, hlength, hmany, halike⟩
    intro calls' u'
    constructor
    · intro h
      exact hrounds.unique h
    · rintro ⟨rfl, rfl⟩
      exact hrounds
  · intro l c hend
    cases hagain : (t.matchNode child l c).matched with
    | false => exact Or.inl rfl
    | true =>
      right
      have hstay := Matcher.many_of_again hchild (s := ⟨left, collected⟩) (congrArg Outcome.matched hend)
      have hstate : (Matcher.many (t.resolve child).matcher ⟨left, collected⟩).toMatchState = ⟨l, c⟩ :=
        congrArg Outcome.toMatchState hend
      rw [hstate] at hstay
      exact hstay hagain

/-- The child of the repetition is `[[FILE]...]`, which always fits. From two words it takes both in its
first round and nothing in its second; from none it is called twice as well, which is as often as the bound
allows. -/
theorem rounds_oneOrMore_sample :
    let t : Tree := ⟨[.placeholder "FILE"], .required []⟩
    let child : Pattern Nat := .optional [.oneOrMore (.optional [.leaf 0])]
    let words : List Leaf := [.positional "a", .positional "b"]
    let bound : List Leaf := [.argument (some "FILE") (.str "a"), .argument (some "FILE") (.str "b")]
    t.matchNode (.oneOrMore child) words [] = .success ⟨[], bound⟩ ∧
    t.matchNode child [] bound = .success ⟨[], bound⟩ ∧
    Matcher.Rounds (fun s => t.matchNode child s.left s.collected) none ⟨[], bound⟩
      [⟨[], bound⟩, ⟨[], bound⟩] ⟨[], bound⟩ := by
  intro t child words bound
  have hwords : t.matchNode (.oneOrMore child) words [] = .success ⟨[], bound⟩ := by cbv
  -- an optional child never fails, so one more call fits and stays where it is
  have hfits : (t.matchNode child [] bound).matched = true := rfl
  have hstay : t.matchNode child [] bound = .success ⟨[], bound⟩ :=
    ((t.rounds_oneOrMore child words []).2 [] bound hwords).resolve_left (ne_false_of_eq_true hfits)
  exact ⟨hwords, hstay, Matcher.rounds_of_eq_success hstay⟩

end Tree

end Synopsis
