import Synopsis.Proofs.Assignment
import Synopsis.Proofs.Composition
import Synopsis.Proofs.Numbering

/-!
# Who is to blame

Three parties can be behind an answer that is not a set of bindings: the author of the help text,
the user who typed the invocation, and the user who asked to be told something. The author and the
user share the readers of options, and the mode in which a reader runs decides between them. Whatever
reader it is, each of its failures is what the mode makes of some text (`FailsAs`): by cases on a long
option, by induction over the letters of a cluster, the words of an invocation and the tokens of a
pattern.

So what keeps an interface from being built is the author's fault. Once it is built nothing is: the
numbers of its tree are in range at every stage (`BuiltFrom`), an invocation that cannot be read is the
user's fault, and one that is read has exactly one answer (`Reply`), where a request for help comes
before one for the version, and both before the match.
-/

namespace Synopsis

/-! ## Kinds of failures -/

/-- **`FailsAs mode outcome`**: the outcome is a success, or a failure that the mode makes of a text. -/
inductive FailsAs {α : Type} (mode : Mode) : Except Failure α → Prop
  | ok (a : α) : FailsAs mode (.ok a)
  | failure (text : String) : FailsAs mode (.error (mode.failure text))

namespace FailsAs

variable {α β : Type} {mode : Mode} {outcome : Except Failure α}

theorem exists_text {failure : Failure} (h : FailsAs mode outcome) (hfailure : outcome = .error failure) :
    ∃ text, failure = mode.failure text := by
  cases h with
  | ok a => cases hfailure
  | failure text => exact ⟨text, (Except.error.inj hfailure).symm⟩

/-- A failure is handed on past what would have been made of a success. -/
theorem map (h : FailsAs mode outcome) (f : α → β) : FailsAs mode (outcome.map f) := by
  cases h with
  | ok a => exact .ok (f a)
  | failure text => exact .failure text

theorem handOn (h : FailsAs mode outcome) {failure : Failure} (hfailure : outcome = .error failure) :
    FailsAs mode (.error failure : Except Failure β) := by
  obtain ⟨text, rfl⟩ := h.exists_text hfailure
  exact .failure text

end FailsAs

/-! ### Readers of one word -/

theorem failsAs_readLongValue (mode : Mode) (o : Opt) (inline : Option String) (r : Registry)
    (rest : List String) : FailsAs mode (readLongValue mode o inline r rest).outcome := by
  unfold readLongValue
  split
  · split
    · exact .ok _
    · exact .ok _
    · exact .failure _
  · split
    · exact .failure _
    · exact .ok _

theorem failsAs_readLong (mode : Mode) (r : Registry) (words : List String) :
    FailsAs mode (readLong mode r words).outcome := by
  fun_cases readLong mode r words with
  | case1 => exact .ok _
  | case2 => exact .ok _
  | case3 => exact .failure _
  | case4 => exact failsAs_readLongValue ..
  | case5 => exact .failure _

theorem failsAs_readLetters (mode : Mode) (r : Registry) (rest : List String) (cs : List Char) :
    FailsAs mode (readLetters mode r rest cs).outcome := by
  fun_induction readLetters mode r rest cs with
  | case1 => exact .ok _
  | case2 _ _ _ _ _ _ _ ih => exact ih.map _
  | case3 => exact .failure _
  | case4 _ _ _ _ _ _ _ ih => exact ih.map _
  | case5 => exact .ok _
  | case6 => exact .ok _
  | case7 => exact .failure _
  | case8 => exact .failure _

theorem failsAs_readCluster (mode : Mode) (r : Registry) (words : List String) :
    FailsAs mode (readCluster mode r words).outcome := by
  cases words with
  | nil => exact .ok _
  | cons word rest => exact failsAs_readLetters ..

/-! ### Readers of many words -/

theorem failsAs_readInvocation (mode : Mode) (r : Registry) (words : List String) :
    FailsAs mode (readInvocation mode r words).outcome := by
  fun_induction readInvocation mode r words with
  | case1 => exact .ok _
  | case2 => exact .ok _
  | case3 _ _ _ _ _ _ _ ih => exact ih.map _
  | case4 r word rest _ reading failure hfailure => exact (failsAs_readLong ..).handOn hfailure
  | case5 _ _ _ _ _ _ _ ih => exact ih.map _
  | case6 r word rest _ reading failure hfailure => exact (failsAs_readCluster ..).handOn hfailure
  | case7 _ _ _ _ ih => exact ih.map _

/-- The outcome of a step that stops reading; a step that goes on has none yet. -/
def Progress.FailsAs (mode : Mode) : Progress → Prop
  | more _ _ => True
  | stop failure _ => ∃ text, failure = mode.failure text

namespace Draft

theorem failsAs_takeOptions (d : Draft) {mode : Mode} {reading : Reading}
    (h : Synopsis.FailsAs mode reading.outcome) : (d.takeOptions reading).FailsAs mode := by
  unfold takeOptions
  split
  · trivial
  · next failure hfailure => exact h.exists_text hfailure

theorem failsAs_openBracket (d : Draft) (b : Bracket) (rest : List String) :
    (d.openBracket b rest).FailsAs d.mode := by
  unfold openBracket
  split
  · unfold takeAnyOptions
    split
    · trivial
    · exact ⟨_, rfl⟩
  · trivial

theorem failsAs_closeBracket (d : Draft) (b : Bracket) (token : String) (rest : List String) :
    (d.closeBracket b token rest).FailsAs d.mode := by
  unfold closeBracket
  split
  · exact ⟨_, rfl⟩
  · split
    · trivial
    · exact ⟨_, rfl⟩

theorem failsAs_advance (d : Draft) (token : String) (rest : List String) :
    (d.advance token rest).FailsAs d.mode := by
  unfold advance
  split
  · exact d.failsAs_openBracket ..
  · exact d.failsAs_closeBracket ..
  · trivial
  · exact d.failsAs_takeOptions (failsAs_readLong ..)
  · exact d.failsAs_takeOptions (failsAs_readCluster ..)
  · trivial
  · trivial

/-- A whole run; the mode it starts with is the mode it fails in. -/
theorem failsAs_run (d : Draft) (tokens : List String) :
    Synopsis.FailsAs d.mode (d.run tokens).outcome := by
  fun_induction run d tokens with
  | case1 d =>
    unfold finish
    split
    · exact .ok _
    · exact .failure _
  | case2 d token rest d' rest' hadvance ih =>
    rw [← mode_of_step (step_of_advance hadvance)]
    exact ih
  | case3 d token rest failure registry hadvance =>
    have hstep := d.failsAs_advance token rest
    rw [hadvance] at hstep
    obtain ⟨text, rfl⟩ := hstep
    exact .failure text

end Draft

/-- A pattern that cannot be read is malformed, whatever the fault. -/
theorem failsAs_parsePattern (r : Registry) (source : String) :
    FailsAs .grammar (parsePattern r source).outcome :=
  (Draft.start .grammar r).failsAs_run _

/-- A help text without a section to work with counts as a malformed pattern. -/
theorem failsAs_sectionOf (doc : String) : FailsAs .grammar (Usage.sectionOf doc) := by
  unfold Usage.sectionOf
  split
  · exact .failure _
  · exact .ok _
  · exact .failure _

/-- Under either policy a fault in an invocation is the user's. -/
theorem UnknownPolicy.failure_mode (policy : UnknownPolicy) (text : String) :
    policy.mode.failure text = .invocation text := by
  cases policy <;> rfl

namespace Interface

/-! ## Building -/

/-- **`i.BuiltFrom doc settings`**: the parts of the interface are those of the help text, and no
number is out of range, neither in the tree that was read nor on the way to its normal form. -/
structure BuiltFrom (doc : String) (settings : Settings) (i : Interface) : Prop where
  doc_eq : i.doc = doc
  section_eq : Usage.sectionOf doc = .ok i.usage
  settings_eq : i.settings = settings
  tree_read : ∃ t, parsePattern (Registry.ofHelp doc) (Usage.formal i.usage) = ⟨.ok t, i.options⟩ ∧
    t.InRange ∧ t.intern.InRange ∧ i.tree = t.normalize
  inRange : i.tree.InRange

/-- Building ends in an interface of the help text, or in a fault of the help text. -/
theorem ofHelp_cases (doc : String) (settings : Settings) :
    (∃ text, ofHelp doc settings = .error (.grammar text)) ∨
      ∃ i, ofHelp doc settings = .ok i ∧ i.BuiltFrom doc settings := by
  unfold ofHelp
  split
  · next failure hfailure =>
    obtain ⟨text, rfl⟩ := (failsAs_sectionOf doc).exists_text hfailure
    exact .inl ⟨text, rfl⟩
  · next usage husage =>
    simp only
    split
    · next failure hfailure =>
      obtain ⟨text, rfl⟩ := (failsAs_parsePattern ..).exists_text hfailure
      exact .inl ⟨text, rfl⟩
    · next t ht =>
      refine .inr ⟨_, rfl, rfl, husage, rfl, ⟨t, ?_, inRange_of_parsePattern ht, t.inRange_intern, rfl⟩,
        t.inRange_normalize⟩
      exact congrArg (Parsed.mk · (parsePattern (Registry.ofHelp doc) (Usage.formal usage)).registry) ht

/-! ## Answering -/

/-- One of the names is asked for: an option of that name is given, with a value that is not empty
or false. -/
def Asked (names : List String) (leaves : List Leaf) : Prop :=
  ∃ o, .option o ∈ leaves ∧ o.name ∈ names ∧ o.value.isTruthy = true

theorem any_asksFor_iff {names : List String} {leaves : List Leaf} :
    leaves.any (asksFor names) = true ↔ Asked names leaves := by
  rw [List.any_eq_true]
  constructor
  · rintro ⟨l, hl, hasks⟩
    cases l with
    | option o =>
      obtain ⟨hname, hvalue⟩ := Bool.and_eq_true_iff.mp hasks
      exact ⟨o, hl, List.contains_iff_mem.mp hname, hvalue⟩
    | argument name value => cases hasks
    | command name given => cases hasks
    | anyOptions => cases hasks
  · rintro ⟨o, ho, hname, hvalue⟩
    exact ⟨.option o, ho, Bool.and_eq_true_iff.mpr ⟨List.contains_iff_mem.mpr hname, hvalue⟩⟩

/-- Help is asked for, and the settings do not switch it off. -/
def HelpDue (i : Interface) (leaves : List Leaf) : Prop :=
  i.settings.helpEnabled = true ∧ Asked ["-h", "--help"] leaves

/-- The version is asked for, and the settings say what it is. -/
def VersionDue (i : Interface) (v : String) (leaves : List Leaf) : Prop :=
  i.settings.version = some v ∧ Asked ["--version"] leaves

/-- **`i.Reply known leaves answer`**: the answer that is due to leaves that were read, with the
options known after reading them. The rules exclude each other. -/
inductive Reply (i : Interface) (known : Registry) (leaves : List Leaf) :
    Except Failure Bindings → Prop
  /-- Help is due. -/
  | help (hhelp : i.HelpDue leaves) : Reply i known leaves (.error (.help i.doc))
  /-- The version is due, and help is not. -/
  | version {v : String} (hhelp : ¬ i.HelpDue leaves) (hversion : i.VersionDue v leaves) :
      Reply i known leaves (.error (.version v))
  /-- Nothing is asked for, and the leaves do not fit the pattern. -/
  | noMatch (hhelp : ¬ i.HelpDue leaves) (hversion : ∀ v, ¬ i.VersionDue v leaves)
      (hmatch : (i.tree.matchLeaves leaves).isComplete = false) :
      Reply i known leaves (.error (.noMatch i.usage))
  /-- Nothing is asked for, and the leaves fit the pattern. -/
  | bindings (hhelp : ¬ i.HelpDue leaves) (hversion : ∀ v, ¬ i.VersionDue v leaves)
      (hmatch : (i.tree.matchLeaves leaves).isComplete = true) :
      Reply i known leaves (.ok (Bindings.empty.insertAll
        (i.assembled known leaves (i.tree.matchLeaves leaves).collected)))

variable {i : Interface} {known : Registry} {leaves : List Leaf}

/-- At most one answer is due. -/
theorem Reply.unique {a b : Except Failure Bindings} (ha : i.Reply known leaves a)
    (hb : i.Reply known leaves b) : a = b := by
  cases ha with
  | help hhelp =>
    cases hb with
    | help => rfl
    | version hno | noMatch hno | bindings hno => exact absurd hhelp hno
  | @version v hno hversion =>
    cases hb with
    | help hhelp => exact absurd hhelp hno
    | version _ hversion' =>
      obtain rfl := Option.some.inj (hversion.1.symm.trans hversion'.1)
      rfl
    | noMatch _ hnone | bindings _ hnone => exact absurd hversion (hnone v)
  | noMatch hno hnone hmatch =>
    cases hb with
    | help hhelp => exact absurd hhelp hno
    | @version v _ hversion => exact absurd hversion (hnone v)
    | noMatch => rfl
    | bindings _ _ hmatch' =>
      rw [hmatch] at hmatch'
      cases hmatch'
  | bindings hno hnone hmatch =>
    cases hb with
    | help hhelp => exact absurd hhelp hno
    | @version v _ hversion => exact absurd hversion (hnone v)
    | noMatch _ _ hmatch' =>
      rw [hmatch] at hmatch'
      cases hmatch'
    | bindings => rfl

theorem helpEnabled_and_any_iff (i : Interface) (leaves : List Leaf) :
    (i.settings.helpEnabled && leaves.any (asksFor helpNames)) = true ↔ i.HelpDue leaves := by
  rw [Bool.and_eq_true_iff, any_asksFor_iff]
  rfl

theorem request?_of_helpDue (h : i.HelpDue leaves) : i.request? leaves = some (.help i.doc) :=
  if_pos ((i.helpEnabled_and_any_iff leaves).mpr h)

theorem request?_of_versionDue {v : String} (hhelp : ¬ i.HelpDue leaves) (h : i.VersionDue v leaves) :
    i.request? leaves = some (.version v) := by
  obtain ⟨hversion, hasked⟩ := h
  rw [request?, if_neg (mt (i.helpEnabled_and_any_iff leaves).mp hhelp), hversion]
  exact if_pos (any_asksFor_iff.mpr hasked)

theorem request?_eq_none (hhelp : ¬ i.HelpDue leaves) (h : ∀ v, ¬ i.VersionDue v leaves) :
    i.request? leaves = none := by
  rw [request?, if_neg (mt (i.helpEnabled_and_any_iff leaves).mp hhelp)]
  split
  · next v hversion => exact if_neg fun hasked => h v ⟨hversion, any_asksFor_iff.mp hasked⟩
  · rfl

/-- What is answered is due. -/
theorem reply_bindLeaves (i : Interface) (known : Registry) (leaves : List Leaf) :
    i.Reply known leaves (i.bindLeaves known leaves) := by
  unfold bindLeaves
  by_cases hhelp : i.HelpDue leaves
  · rw [request?_of_helpDue hhelp]
    exact .help hhelp
  by_cases hversion : ∃ v, i.VersionDue v leaves
  · obtain ⟨v, hversion⟩ := hversion
    rw [request?_of_versionDue hhelp hversion]
    exact .version hhelp hversion
  · have hnone : ∀ v, ¬ i.VersionDue v leaves := not_exists.mp hversion
    rw [request?_eq_none hhelp hnone]
    simp only
    split
    · next hmatch => exact .bindings hhelp hnone hmatch
    · next hmatch => exact .noMatch hhelp hnone (Bool.eq_false_iff.mpr hmatch)

/-! ## Reading an invocation -/

/-- **`i.Blames read answer`**: a fault in an invocation is the user's and that of nobody else, and
an invocation without one gets the reply that is due. -/
structure Blames (i : Interface) (read : Invocation) (answer : Except Failure Bindings) : Prop where
  not_grammar : ∀ text, answer ≠ .error (.grammar text)
  invocation_iff : (∃ text, answer = .error (.invocation text)) ↔
    ∃ failure, read.outcome = .error failure
  /-- The answer to an invocation that cannot be read is the failure of the reader. -/
  failure_eq : ∀ failure, read.outcome = .error failure → answer = .error failure
  reply_iff : ∀ leaves, read.outcome = .ok leaves →
    ∀ due, answer = due ↔ i.Reply read.registry leaves due

/-- A reply blames nobody for the way the invocation is written. -/
theorem Reply.ne_fault {answer : Except Failure Bindings} (h : i.Reply known leaves answer)
    (text : String) :
    answer ≠ .error (.grammar text) ∧ answer ≠ .error (.invocation text) := by
  cases h with
  | help | version | noMatch | bindings => exact ⟨nofun, nofun⟩

theorem blames_parse (i : Interface) (words : List String) :
    i.Blames (readInvocation i.settings.mode i.options words) (i.parse words) := by
  unfold parse
  simp only
  split
  · next failure hfailure =>
    obtain ⟨text, rfl⟩ := (failsAs_readInvocation ..).exists_text hfailure
    have hmode : i.settings.mode.failure text = .invocation text :=
      i.settings.policy.failure_mode text
    rw [hmode] at hfailure ⊢
    refine ⟨nofun, iff_of_true ⟨text, rfl⟩ ⟨_, hfailure⟩, ?_, ?_⟩
    · intro failure' hfailure'
      rw [Except.error.inj (hfailure.symm.trans hfailure')]
    · intro leaves hleaves
      rw [hfailure] at hleaves
      cases hleaves
  · next leaves hleaves =>
    have hreply := i.reply_bindLeaves (readInvocation i.settings.mode i.options words).registry leaves
    refine ⟨fun text => (hreply.ne_fault text).1, iff_of_false ?_ ?_, ?_, ?_⟩
    · rintro ⟨text, htext⟩
      exact (hreply.ne_fault text).2 htext
    · rintro ⟨failure, hfailure⟩
      rw [hleaves] at hfailure
      cases hfailure
    · intro failure hfailure
      rw [hleaves] at hfailure
      cases hfailure
    · intro leaves' hleaves'
      obtain rfl := Except.ok.inj (hleaves.symm.trans hleaves')
      intro due
      constructor
      · rintro rfl
        exact hreply
      · exact hreply.unique

/-- **Errors are blamed on the right party.** If no interface can be built from a help text, that is
the fault of the help text. If one can, all its numbers are in range; and whatever the policy on
unknown options and whatever the words, the help text is not at fault any more, the invocation is at
fault exactly if it cannot be read, and in every other case the answer is the one that is due: help,
the version, that the pattern does not fit, or bindings. -/
theorem blames_of_ofHelp (doc : String) (settings : Settings) :
    (∀ failure, ofHelp doc settings = .error failure → ∃ text, failure = .grammar text) ∧
    ∀ i, ofHelp doc settings = .ok i → i.BuiltFrom doc settings ∧
      ∀ (policy : UnknownPolicy) (words : List String), (i.withPolicy policy).Blames
        (readInvocation policy.mode i.options words) ((i.withPolicy policy).parse words) := by
  rcases ofHelp_cases doc settings with ⟨text, hfault⟩ | ⟨i, hi, hbuilt⟩
  · rw [hfault]
    refine ⟨?_, nofun⟩
    intro failure hfailure
    exact ⟨text, (Except.error.inj hfailure).symm⟩
  · rw [hi]
    refine ⟨nofun, ?_⟩
    intro j hj
    obtain rfl := Except.ok.inj hj
    exact ⟨hbuilt, fun policy words => (i.withPolicy policy).blames_parse words⟩

/-- The interface of `m [-h] [--version] N` with a version. -/
def clerk : Interface :=
  { doc := "usage: m [-h] [--version] N"
    usage := "usage: m [-h] [--version] N"
    options := [.ofShort "-h", .ofLong "--version" 0]
    tree := ⟨[.option (.ofShort "-h"), .option (.ofLong "--version" 0), .placeholder "N"],
      .required [.optional [.leaf 0], .optional [.leaf 1], .leaf 2]⟩
    settings := ⟨none, some "1.0", none⟩ }

theorem ofHelp_clerk : ofHelp clerk.doc clerk.settings = .ok clerk := by
  have hsection : Usage.sectionOf clerk.doc = .ok clerk.usage := by cbv
  have hregistry : Registry.ofHelp clerk.doc = [] := by cbv
  have hformal : Usage.formal clerk.usage = "[-h] [--version] N" := by cbv
  have hparsed : parsePattern [] "[-h] [--version] N" = ⟨.ok clerk.tree, clerk.options⟩ :=
    parsePattern_of_runWithin rfl
  have hnormal : clerk.tree.normalize = clerk.tree := by cbv
  rw [ofHelp, hsection]
  simp only [hregistry, hformal, hparsed, hnormal]

/-- Three help texts. One has no usage section, and in the pattern of another an option lacks its value,
which is a fault that a user can make, too. With the third, an unknown option is a fault or not as the
policy has it, help comes before the version, and the version before the match. -/
theorem blames_of_clerk :
    (∃ failure, ofHelp "m [-h] N" clerk.settings = .error failure ∧ ∃ text, failure = .grammar text) ∧
    (∃ failure, ofHelp "usage: m -o\n\n-o FILE" clerk.settings = .error failure ∧
      failure.message = "malformed usage pattern: -o requires argument" ∧
      ∃ text, failure = .grammar text) ∧
    ofHelp clerk.doc clerk.settings = .ok clerk ∧ clerk.tree.InRange ∧
    (clerk.withPolicy .reject).parse ["-x"] = .error (.invocation "-x is not recognized") ∧
    (clerk.withPolicy .register).parse ["-x"] = .error (.noMatch clerk.usage) ∧
    (clerk.withPolicy .reject).parse ["--version", "-h"] = .error (.help clerk.doc) ∧
    (clerk.withPolicy .reject).parse ["--version"] = .error (.version "1.0") := by
  have hfails : ofHelp "m [-h] N" clerk.settings =
      .error (.grammar (UsageFault.message .missing)) := by cbv
  have hlacks : ofHelp "usage: m -o\n\n-o FILE" clerk.settings =
      .error (.grammar "-o requires argument") := by cbv
  obtain ⟨hbuilt, hblames⟩ := (blames_of_ofHelp clerk.doc clerk.settings).2 clerk ofHelp_clerk
  have hunknown : (readInvocation .strict clerk.options ["-x"]).outcome =
      .error (.invocation "-x is not recognized") := by cbv
  let taken : Opt := ⟨some "-x", none, 0, .bool true⟩
  let version : Opt := ⟨none, some "--version", 0, .bool true⟩
  let help : Opt := ⟨some "-h", none, 0, .bool true⟩
  have htaken : (readInvocation .lenient clerk.options ["-x"]).outcome = .ok [.option taken] := by cbv
  have hboth : (readInvocation .strict clerk.options ["--version", "-h"]).outcome =
      .ok [.option version, .option help] := by cbv
  have hversion : (readInvocation .strict clerk.options ["--version"]).outcome =
      .ok [.option version] := by cbv
  have hother : ∀ {names : List String} {o : Opt}, o.name ∉ names → ¬ Asked names [.option o] := by
    rintro names o hnames ⟨p, hp, hname, -⟩
    obtain rfl := Leaf.option.inj (List.mem_singleton.mp hp)
    exact hnames hname
  refine ⟨⟨_, hfails, (blames_of_ofHelp _ _).1 _ hfails⟩,
    ⟨_, hlacks, by decide, (blames_of_ofHelp _ _).1 _ hlacks⟩, ofHelp_clerk, hbuilt.inRange, ?_, ?_, ?_, ?_⟩
  · exact (hblames .reject ["-x"]).failure_eq _ hunknown
  · refine ((hblames .register ["-x"]).reply_iff _ htaken _).mpr (.noMatch ?_ ?_ (by cbv))
    · exact fun hhelp => hother (by decide) hhelp.2
    · exact fun _ hasked => hother (by decide) hasked.2
  · have hasked : Asked ["-h", "--help"] [.option version, .option help] :=
      ⟨help, by simp, by decide, rfl⟩
    exact ((hblames .reject ["--version", "-h"]).reply_iff _ hboth _).mpr (.help ⟨rfl, hasked⟩)
  · have hasked : Asked ["--version"] [.option version] := ⟨version, by simp, by decide, rfl⟩
    refine ((hblames .reject ["--version"]).reply_iff _ hversion _).mpr (.version ?_ ⟨rfl, hasked⟩)
    exact fun hhelp => hother (by decide) hhelp.2

end Interface

end Synopsis
