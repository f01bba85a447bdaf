import Mathlib
import Synopsis.Proofs.Grammar
import Synopsis.Proofs.Nesting
import Synopsis.Proofs.Registration

/-!
# Brackets in a usage pattern

The stack of a draft moves as that of `closes` does. `Draft.Turn` says once what reading one token does to
the open brackets and which tokens it takes (`turn_advance`); what follows comes from that relation only.
Where no token is an option, a pattern is read exactly if its brackets are nested and each shorthand for
options is closed (`parsePattern_ok_iff_nested`). Where there are options, one that takes a value takes the
next token whatever it is. So a bracket may be lost to an option (`parsePattern_swallows_bracket`), and of
a pattern that is read only the tokens that no option took are nested (`nested_without_values`).
-/

namespace Synopsis

/-! ## What a step does to the open brackets -/

/-- The token is read as options. -/
def IsOptionToken (token : String) : Prop :=
  TokenKind.of token = .long ∨ TokenKind.of token = .cluster

theorem IsOptionToken.not_isBracket {token : String} (h : IsOptionToken token) :
    ¬ IsBracket token := by
  rcases h with hkind | hkind
  · exact TokenKind.marks_of_eq hkind
  · exact TokenKind.marks_of_eq hkind

/-- **`SkipsEllipsis rest rest'`**: `rest'` are the tokens `rest`, or those behind the ellipsis that they
start with. -/
def SkipsEllipsis (rest rest' : List String) : Prop := rest' = rest ∨ rest = "..." :: rest'

theorem skipsEllipsis_withEllipsis (atoms : List (Pattern Nat)) (rest : List String) :
    SkipsEllipsis rest (withEllipsis atoms rest).2 := by
  unfold withEllipsis
  split
  · exact Or.inl rfl
  · next token rest =>
    split
    · next htoken => exact Or.inr (by rw [htoken])
    · exact Or.inl rfl

/-- **`reading.Takes rest`**: of the tokens `rest` the reading has left all, or all but the first, which
one of the options it found has for its value. -/
def Reading.Takes (rest : List String) (reading : Reading) : Prop :=
  reading.rest = rest ∨ ∃ v, rest = v :: reading.rest ∧ ∃ o ∈ reading.found, o.value = .str v

theorem Reading.Takes.precededBy {rest : List String} {reading : Reading} (h : reading.Takes rest)
    (o : Opt) : (reading.precededBy o).Takes rest := by
  rcases h with hrest | ⟨v, hv, p, hp, hvalue⟩
  · exact Or.inl hrest
  · refine Or.inr ⟨v, hv, p, ?_, hvalue⟩
    obtain ⟨outcome, registry, left⟩ := reading
    cases outcome with
    | error fault => cases hp
    | ok os => exact List.mem_cons_of_mem o hp

theorem takes_readLongValue (mode : Mode) (o : Opt) (inline : Option String) (r : Registry)
    (rest : List String) : (readLongValue mode o inline r rest).Takes rest := by
  fun_cases readLongValue mode o inline r rest with
  | case2 _ v rest => exact Or.inr ⟨v, rfl, _, List.mem_singleton_self _, rfl⟩
  | case1 | case3 | case4 | case5 => exact Or.inl rfl

theorem takes_readLong (mode : Mode) (r : Registry) (word : String) (rest : List String) :
    (readLong mode r (word :: rest)).Takes rest := by
  simp only [readLong]
  split
  · split <;> exact Or.inl rfl
  · exact takes_readLongValue ..
  · exact Or.inl rfl

theorem takes_readLetters (mode : Mode) (r : Registry) (rest : List String) (cs : List Char) :
    (readLetters mode r rest cs).Takes rest := by
  induction cs generalizing r with
  | nil => exact Or.inl rfl
  | cons c cs ih =>
    simp only [readLetters]
    split
    · split
      · exact (ih _).precededBy _
      · exact Or.inl rfl
    · split
      · exact (ih _).precededBy _
      · split
        · exact Or.inl rfl
        · next v rest => exact Or.inr ⟨v, rfl, _, List.mem_singleton_self _, rfl⟩
        · exact Or.inl rfl
    · exact Or.inl rfl

namespace Draft

/-- The brackets that are open, the innermost first. -/
def opened (d : Draft) : List Bracket := d.outer.map Prod.fst

/-- **`d.Turn tokens progress`**: what reading the first token, with what belongs to it, does to the open
brackets, and which tokens it takes. -/
inductive Turn (d : Draft) : List String → Progress → Prop
  /-- A bracket is opened that does not start the shorthand for options. -/
  | opening {d' : Draft} {b : Bracket} {rest : List String}
      (hrest : b = .square → rest.head? ≠ some "options") (hopened : d'.opened = b :: d.opened)
      (hregistry : d'.registry = d.registry) : d.Turn (b.opening :: rest) (.more d' rest)
  /-- The shorthand for options is taken up as a whole. -/
  | shorthand {d' : Draft} {rest rest' : List String} (hrest : SkipsEllipsis rest rest')
      (hopened : d'.opened = d.opened) (hregistry : d'.registry = d.registry) :
      d.Turn ("[" :: "options" :: "]" :: rest) (.more d' rest')
  /-- The shorthand for options is not closed. -/
  | openShorthand {rest : List String} (hrest : rest.head? ≠ some "]") :
      d.Turn ("[" :: "options" :: rest) (.stop (d.failure (.unmatched .square)) d.registry)
  /-- The innermost bracket is closed. -/
  | closing {d' : Draft} {b : Bracket} {rest rest' : List String}
      (hrest : SkipsEllipsis rest rest') (hopened : d.opened = b :: d'.opened)
      (hregistry : d'.registry = d.registry) : d.Turn (b.closing :: rest) (.more d' rest')
  /-- A closing bracket is not the like of the innermost open one. -/
  | mismatch {b : Bracket} {rest : List String} {fault : GrammarFault}
      (hopened : d.opened.head? ≠ some b) :
      d.Turn (b.closing :: rest) (.stop (d.failure fault) d.registry)
  /-- Any other token that is no option leaves the brackets alone. -/
  | word {d' : Draft} {token : String} {rest rest' : List String} (htoken : ¬ IsBracket token)
      (hrest : SkipsEllipsis rest rest') (hopened : d'.opened = d.opened)
      (hregistry : d'.registry = d.registry) : d.Turn (token :: rest) (.more d' rest')
  /-- So does an option, which may take the next token as its value. -/
  | options {d' : Draft} {token : String} {rest rest' : List String} {reading : Reading}
      (htoken : IsOptionToken token) (htakes : reading.Takes rest)
      (hrest : SkipsEllipsis reading.rest rest') (hopened : d'.opened = d.opened)
      (hslots : ∀ o ∈ reading.found, .option o ∈ d'.slots) :
      d.Turn (token :: rest) (.more d' rest')
  /-- An option cannot be read. -/
  | unread {token : String} {rest : List String} {failure : Failure} {registry : Registry}
      (htoken : IsOptionToken token) : d.Turn (token :: rest) (.stop failure registry)

theorem turn_openBracket (d : Draft) (b : Bracket) (rest : List String) :
    d.Turn (b.opening :: rest) (d.openBracket b rest) := by
  unfold openBracket
  split
  · next rest =>
    unfold takeAnyOptions
    split
    · exact .shorthand (skipsEllipsis_withEllipsis ..) rfl rfl
    · next hrest =>
      refine .openShorthand ?_
      intro hhead
      obtain ⟨rest, rfl⟩ := List.head?_eq_some_iff.mp hhead
      exact hrest rest rfl
  · next hrest =>
    refine .opening ?_ rfl rfl
    rintro rfl hhead
    obtain ⟨rest, rfl⟩ := List.head?_eq_some_iff.mp hhead
    exact hrest rest rfl rfl

theorem turn_closeBracket (d : Draft) (b : Bracket) (rest : List String) :
    d.Turn (b.closing :: rest) (d.closeBracket b b.closing rest) := by
  unfold closeBracket
  split
  · next houter =>
    refine .mismatch ?_
    rw [opened, houter]
    intro h
    cases h
  · next innermost level outer houter =>
    split
    · next hb =>
      subst hb
      refine .closing (skipsEllipsis_withEllipsis ..) ?_ rfl
      rw [opened, houter]
      rfl
    · next hb =>
      refine .mismatch ?_
      rw [opened, houter]
      exact fun h => hb (Option.some.inj h)

theorem turn_takeOptions (d : Draft) {token : String} {rest : List String} {reading : Reading}
    (htoken : IsOptionToken token) (htakes : reading.Takes rest) :
    d.Turn (token :: rest) (d.takeOptions reading) := by
  unfold takeOptions
  split
  · next os hos =>
    refine .options htoken htakes (skipsEllipsis_withEllipsis ..) rfl ?_
    intro o ho
    rw [Reading.found, hos] at ho
    exact List.mem_append_right _ (List.mem_map_of_mem ho)
  · exact .unread htoken

/-- Each step is one of these turns. -/
theorem turn_advance (d : Draft) (token : String) (rest : List String) :
    d.Turn (token :: rest) (d.advance token rest) := by
  unfold advance
  split
  · next b hkind =>
    obtain rfl : token = b.opening := TokenKind.marks_of_eq hkind
    exact d.turn_openBracket b rest
  · next b hkind =>
    obtain rfl : token = b.closing := TokenKind.marks_of_eq hkind
    exact d.turn_closeBracket b rest
  · next hkind => exact .word (TokenKind.marks_of_eq hkind) (Or.inl rfl) rfl rfl
  · next hkind => exact d.turn_takeOptions (Or.inl hkind) (takes_readLong ..)
  · next hkind => exact d.turn_takeOptions (Or.inr hkind) (takes_readLetters ..)
  · next hkind =>
    exact .word (TokenKind.marks_of_eq hkind) (skipsEllipsis_withEllipsis ..) rfl rfl
  · next hkind =>
    exact .word (TokenKind.marks_of_eq hkind) (skipsEllipsis_withEllipsis ..) rfl rfl

end Draft

/-! ## Patterns without options -/

/-- Each shorthand for options that is opened is closed right behind. -/
def ShorthandsClosed (tokens : List String) : Prop :=
  ∀ before after, tokens = before ++ "[" :: "options" :: after → after.head? = some "]"

theorem shorthandsClosed_nil : ShorthandsClosed [] := by
  intro before after h
  cases before <;> cases h

theorem shorthandsClosed_cons {token : String} {rest : List String} :
    ShorthandsClosed (token :: rest) ↔
      (token = "[" → rest.head? = some "options" → rest.tail.head? = some "]") ∧
        ShorthandsClosed rest := by
  constructor
  · intro hclosed
    constructor
    · rintro rfl hhead
      obtain ⟨after, rfl⟩ := List.head?_eq_some_iff.mp hhead
      exact hclosed [] after rfl
    · intro before after heq
      exact hclosed (token :: before) after (by rw [heq, List.cons_append])
  · rintro ⟨hfirst, hclosed⟩ before after heq
    cases before with
    | nil =>
      obtain ⟨rfl, rfl⟩ := List.cons.inj heq
      exact hfirst rfl rfl
    | cons _ before =>
      obtain ⟨-, rfl⟩ := List.cons.inj heq
      exact hclosed before after rfl

instance decidableShorthandsClosed : (tokens : List String) → Decidable (ShorthandsClosed tokens)
  | [] => isTrue shorthandsClosed_nil
  | _ :: rest =>
    have := decidableShorthandsClosed rest
    decidable_of_iff' _ shorthandsClosed_cons

/-- **`Acceptable opened tokens`**: the tokens close the open brackets, and each shorthand for options. -/
def Acceptable (opened : List Bracket) (tokens : List String) : Prop :=
  closes opened tokens = true ∧ ShorthandsClosed tokens

theorem acceptable_word {opened : List Bracket} {token : String} (h : ¬ IsBracket token)
    {rest : List String} : Acceptable opened (token :: rest) ↔ Acceptable opened rest := by
  have hne : token ≠ "[" := by
    rintro rfl
    exact h (by decide)
  simp [Acceptable, closes_word _ h, shorthandsClosed_cons, hne]

theorem acceptable_shorthand {opened : List Bracket} {rest : List String} :
    Acceptable opened ("[" :: "options" :: "]" :: rest) ↔ Acceptable opened rest := by
  have hnested : Nested ["[", "options", "]"] := by decide
  have hcloses := hnested.closes_append opened rest
  simp only [List.cons_append, List.nil_append] at hcloses
  simp [Acceptable, hcloses, shorthandsClosed_cons]

theorem SkipsEllipsis.acceptable {opened : List Bracket} {rest rest' : List String}
    (h : SkipsEllipsis rest rest') : Acceptable opened rest ↔ Acceptable opened rest' := by
  rcases h with rfl | rfl
  · rfl
  · exact acceptable_word (by decide)

theorem SkipsEllipsis.subset {rest rest' : List String} (h : SkipsEllipsis rest rest') :
    rest' ⊆ rest := by
  rcases h with rfl | rfl
  · exact List.Subset.refl _
  · exact List.subset_cons_self _ _

namespace Draft

/-- What a step that is no option makes of what is acceptable: reading goes on with acceptable tokens
exactly if they were, and stops only if they were not, at a fault of the brackets. -/
def Keeps (d : Draft) (tokens : List String) : Progress → Prop
  | .more d' rest =>
    rest ⊆ tokens ∧ d'.registry = d.registry ∧
      (Acceptable d.opened tokens ↔ Acceptable d'.opened rest)
  | .stop failure registry =>
    registry = d.registry ∧ (∃ fault, failure = d.failure fault) ∧ ¬ Acceptable d.opened tokens

theorem Turn.keeps {d : Draft} {token : String} {rest : List String} {progress : Progress}
    (h : d.Turn (token :: rest) progress) (htoken : ¬ IsOptionToken token) :
    d.Keeps (token :: rest) progress := by
  cases h with
  | @opening d' b _ hrest hopened hregistry =>
    refine ⟨List.subset_cons_self _ _, hregistry, ?_⟩
    have hfirst : b.opening = "[" → rest.head? = some "options" → rest.tail.head? = some "]" := by
      intro hb hhead
      cases b with
      | round => exact absurd hb (by decide)
      | square => exact absurd hhead (hrest rfl)
    rw [Acceptable, Acceptable, closes_opening, hopened, shorthandsClosed_cons,
      and_iff_right hfirst]
  | shorthand hrest hopened hregistry =>
    refine ⟨?_, hregistry, ?_⟩
    · intro token htoken
      exact List.mem_append_right ["[", "options", "]"] (hrest.subset htoken)
    · rw [acceptable_shorthand, hopened]
      exact hrest.acceptable
  | openShorthand hrest =>
    refine ⟨rfl, ⟨_, rfl⟩, ?_⟩
    rintro ⟨-, hclosed⟩
    exact hrest (hclosed [] _ rfl)
  | @closing d' b _ _ hrest hopened hregistry =>
    refine ⟨List.subset_cons_of_subset _ hrest.subset, hregistry, ?_⟩
    have hne : b.closing ≠ "[" := by cases b <;> decide
    rw [← hrest.acceptable, hopened, Acceptable, Acceptable, closes_closing, List.head?_cons,
      List.tail_cons, beq_self_eq_true, Bool.true_and, shorthandsClosed_cons,
      and_iff_right fun h => absurd h hne]
  | @mismatch b _ _ hopened =>
    refine ⟨rfl, ⟨_, rfl⟩, ?_⟩
    rintro ⟨hcloses, -⟩
    rw [closes_closing, Bool.and_eq_true] at hcloses
    exact hopened (eq_of_beq hcloses.1)
  | word htoken hrest hopened hregistry =>
    refine ⟨List.subset_cons_of_subset _ hrest.subset, hregistry, ?_⟩
    rw [acceptable_word htoken, hopened]
    exact hrest.acceptable
  | options hoption => exact absurd hoption htoken
  | unread hoption => exact absurd hoption htoken

/-- A whole run over tokens that are no options. -/
theorem run_of_no_options (d : Draft) (tokens : List String)
    (htokens : ∀ token ∈ tokens, ¬ IsOptionToken token) :
    (d.run tokens).registry = d.registry ∧
      ((Acceptable d.opened tokens ∧ ∃ t, (d.run tokens).outcome = .ok t) ∨
        (¬ Acceptable d.opened tokens ∧
          ∃ fault, (d.run tokens).outcome = .error (d.failure fault))) := by
  fun_induction run d tokens with
  | case1 d =>
    unfold finish
    split
    · next houter =>
      refine ⟨rfl, Or.inl ⟨⟨?_, shorthandsClosed_nil⟩, _, rfl⟩⟩
      rw [opened, houter]
      rfl
    · next b level outer houter =>
      refine ⟨rfl, Or.inr ⟨?_, _, rfl⟩⟩
      rintro ⟨hcloses, -⟩
      rw [opened, houter] at hcloses
      cases hcloses
  | case2 d token rest d' rest' hadvance ih =>
    have hkeeps := (d.turn_advance token rest).keeps (htokens token List.mem_cons_self)
    rw [hadvance] at hkeeps
    obtain ⟨hsubset, hregistry, hiff⟩ := hkeeps
    simp only [hiff, ← hregistry, ← failure_of_step (step_of_advance hadvance)]
    exact ih fun token htoken => htokens token (hsubset htoken)
  | case3 d token rest failure registry hadvance =>
    have hkeeps := (d.turn_advance token rest).keeps (htokens token List.mem_cons_self)
    rw [hadvance] at hkeeps
    obtain ⟨hregistry, ⟨fault, rfl⟩, hnot⟩ := hkeeps
    exact ⟨hregistry, Or.inr ⟨hnot, fault, rfl⟩⟩

end Draft

theorem not_isOptionToken {token : String}
    (h : token.toList.head? = some '-' → token = "-" ∨ token = "--") : ¬ IsOptionToken token := by
  intro hoption
  have hword : WordKind.of token = .separator ∨ WordKind.of token = .plain := by
    by_cases hhead : token.toList.head? = some '-'
    · rcases h hhead with rfl | rfl
      · exact Or.inr rfl
      · exact Or.inl rfl
    · exact Or.inr (WordKind.of_eq_of_shape (Or.inr hhead))
  have hbar : token ≠ "|" := by
    rintro rfl
    rcases hoption with hkind | hkind <;> cases hkind
  have hbracket := hoption.not_isBracket
  rw [IsOptionToken, TokenKind.of_word hbracket hbar] at hoption
  rcases hword with hword | hword
  · simp [hword] at hoption
  · simp only [hword] at hoption
    split at hoption <;> simp at hoption

/-- **A pattern without options is read exactly if its brackets are nested.** Where no token but `-` and
`--` starts with a dash: the pattern is read if and only if its brackets are properly nested and matched by
kind and each `[` before `options` is closed right behind it. If not, the pattern is malformed, by a fault of
the brackets. Either way no option is registered. -/
theorem parsePattern_ok_iff_nested (r : Registry) (source : String)
    (htokens : ∀ token ∈ tokenize source,
      token.toList.head? = some '-' → token = "-" ∨ token = "--") :
    ((∃ t, (parsePattern r source).outcome = .ok t) ↔
      Nested (tokenize source) ∧ ShorthandsClosed (tokenize source)) ∧
    (¬ (Nested (tokenize source) ∧ ShorthandsClosed (tokenize source)) →
      ∃ fault : GrammarFault, (parsePattern r source).outcome = .error (.grammar fault.message)) ∧
    (parsePattern r source).registry = r := by
  rw [parsePattern_eq_run]
  obtain ⟨hregistry, hrun⟩ := (Draft.start .grammar r).run_of_no_options (tokenize source)
    fun token htoken => not_isOptionToken (htokens token htoken)
  have hnested : Acceptable (Draft.start .grammar r).opened (tokenize source) ↔
      Nested (tokenize source) ∧ ShorthandsClosed (tokenize source) := by
    rw [nested_iff_closes]
    rfl
  rw [hnested] at hrun
  refine ⟨?_, ?_, hregistry⟩
  · rcases hrun with ⟨haccepted, hok⟩ | ⟨hnot, fault, herror⟩
    · exact iff_of_true hok haccepted
    · refine iff_of_false ?_ hnot
      rintro ⟨t, hok⟩
      cases herror.symm.trans hok
  · intro hnot
    rcases hrun with ⟨haccepted, -⟩ | ⟨-, herror⟩
    · exact absurd haccepted hnot
    · exact herror

/-- Bars, an empty group, a leading ellipsis and the shorthand are all read; a bracket that is closed by
the other kind is a fault. -/
theorem parsePattern_ok_iff_nested_sample :
    let whole := "... (a | [options]... |) [[-] -- ()]"
    let crossed := "[a (b])"
    (∀ token ∈ tokenize whole, token.toList.head? = some '-' → token = "-" ∨ token = "--") ∧
      (∃ t, (parsePattern [] whole).outcome = .ok t) ∧ (parsePattern [] whole).registry = [] ∧
      (∀ token ∈ tokenize crossed, token.toList.head? = some '-' → token = "-" ∨ token = "--") ∧
      ∃ fault : GrammarFault, (parsePattern [] crossed).outcome = .error (.grammar fault.message) := by
  intro whole crossed
  have hwhole : tokenize whole = ["...", "(", "a", "|", "[", "options", "]", "...", "|", ")", "[",
      "[", "-", "]", "--", "(", ")", "]"] := by cbv
  have hcrossed : tokenize crossed = ["[", "a", "(", "b", "]", ")"] := by cbv
  have htokens : ∀ token ∈ tokenize whole,
      token.toList.head? = some '-' → token = "-" ∨ token = "--" := by
    rw [hwhole]
    decide
  have htokens' : ∀ token ∈ tokenize crossed,
      token.toList.head? = some '-' → token = "-" ∨ token = "--" := by
    rw [hcrossed]
    decide
  obtain ⟨hiff, -, hregistry⟩ := parsePattern_ok_iff_nested [] whole htokens
  obtain ⟨-, herror, -⟩ := parsePattern_ok_iff_nested [] crossed htokens'
  refine ⟨htokens, hiff.mpr ⟨?_, ?_⟩, hregistry, htokens', herror ?_⟩
  · rw [hwhole]
    decide
  · rw [hwhole]
    decide
  · rw [hcrossed]
    decide

/-! ## Options that take a bracket -/

/-- **`WithoutValues taken tokens kept`**: `kept` are the tokens without some that stand right behind an
option and of which `taken` holds. -/
inductive WithoutValues (taken : String → Prop) : List String → List String → Prop
  | nil : WithoutValues taken [] []
  | keep (token : String) {rest kept : List String} (h : WithoutValues taken rest kept) :
      WithoutValues taken (token :: rest) (token :: kept)
  | value {token v : String} {rest kept : List String} (htoken : IsOptionToken token)
      (hv : taken v) (h : WithoutValues taken rest kept) :
      WithoutValues taken (token :: v :: rest) (token :: kept)

/-- Where no bracket was taken, the brackets are those that were kept. -/
theorem WithoutValues.closes_eq {taken : String → Prop} (htaken : ∀ v, taken v → ¬ IsBracket v)
    {tokens kept : List String} (h : WithoutValues taken tokens kept) (opened : List Bracket) :
    closes opened tokens = closes opened kept := by
  induction h generalizing opened with
  | nil => rfl
  | keep token _ ih =>
    rw [closes, closes]
    simp only [ih]
  | value htoken hv _ ih =>
    rw [closes_word _ htoken.not_isBracket, closes_word _ (htaken _ hv),
      closes_word _ htoken.not_isBracket, ih]

/-- **`ClosesWithout taken opened tokens`**: without some values, the tokens close the open brackets. -/
def ClosesWithout (taken : String → Prop) (opened : List Bracket) (tokens : List String) : Prop :=
  ∃ kept, WithoutValues taken tokens kept ∧ closes opened kept = true

namespace ClosesWithout

variable {taken : String → Prop} {opened : List Bracket} {rest : List String}

theorem word {token : String} (htoken : ¬ IsBracket token) (h : ClosesWithout taken opened rest) :
    ClosesWithout taken opened (token :: rest) := by
  obtain ⟨kept, hkept, hcloses⟩ := h
  exact ⟨token :: kept, .keep token hkept, by rw [closes_word _ htoken, hcloses]⟩

theorem opening {b : Bracket} (h : ClosesWithout taken (b :: opened) rest) :
    ClosesWithout taken opened (b.opening :: rest) := by
  obtain ⟨kept, hkept, hcloses⟩ := h
  exact ⟨b.opening :: kept, .keep _ hkept, by rw [closes_opening, hcloses]⟩

theorem closing {b : Bracket} (h : ClosesWithout taken opened rest) :
    ClosesWithout taken (b :: opened) (b.closing :: rest) := by
  obtain ⟨kept, hkept, hcloses⟩ := h
  refine ⟨b.closing :: kept, .keep _ hkept, ?_⟩
  rw [closes_closing, List.head?_cons, List.tail_cons, hcloses, beq_self_eq_true, Bool.true_and]

theorem behindEllipsis {rest' : List String} (h : ClosesWithout taken opened rest')
    (hskip : SkipsEllipsis rest rest') : ClosesWithout taken opened rest := by
  rcases hskip with rfl | rfl
  · exact h
  · exact h.word (by decide)

/-- An option that takes a value keeps it from the brackets. -/
theorem options {token : String} (htoken : IsOptionToken token) {reading : Reading}
    (htakes : reading.Takes rest)
    (hfound : ∀ o ∈ reading.found, ∀ v, o.value = .str v → taken v)
    (h : ClosesWithout taken opened reading.rest) :
    ClosesWithout taken opened (token :: rest) := by
  rcases htakes with hrest | ⟨v, rfl, o, ho, hvalue⟩
  · rw [hrest] at h
    exact h.word htoken.not_isBracket
  · obtain ⟨kept, hkept, hcloses⟩ := h
    refine ⟨token :: kept, .value htoken (hfound o ho v hvalue) hkept, ?_⟩
    rw [closes_word _ htoken.not_isBracket, hcloses]

end ClosesWithout

/-- An option of the tree has the text for its value. -/
def Tree.HasValue (t : Tree) (v : String) : Prop := ∃ o, .option o ∈ t.slots ∧ o.value = .str v

namespace Draft

/-- What is in a slot stays there to the end. -/
theorem slots_subset_of_run {d : Draft} {tokens : List String} {t : Tree}
    (h : (d.run tokens).outcome = .ok t) : d.slots ⊆ t.slots := by
  have hstep : ∀ e e' : Draft, d.slots ⊆ e.slots → e.Step e' → d.slots ⊆ e'.slots := by
    intro e e' he hstep
    exact List.Subset.trans he (slots_prefix_of_step hstep).subset
  obtain ⟨d', hd', -, rfl⟩ :=
    @exists_draft_of_run (fun e => d.slots ⊆ e.slots) hstep d (List.Subset.refl _) tokens t h
  exact hd'

/-- Of the tokens of a pattern that is read, those that no option took close the open brackets. -/
theorem closesWithout_of_run {d : Draft} {tokens : List String} {t : Tree}
    (h : (d.run tokens).outcome = .ok t) : ClosesWithout t.HasValue d.opened tokens := by
  fun_induction run d tokens with
  | case1 d =>
    unfold finish at h
    split at h
    · next houter => exact ⟨[], .nil, by rw [opened, houter]; rfl⟩
    · cases h
  | case2 d token rest d' rest' hadvance ih =>
    have hturn := d.turn_advance token rest
    rw [hadvance] at hturn
    have hrest := ih h
    cases hturn with
    | opening _ hopened _ =>
      rw [hopened] at hrest
      exact hrest.opening
    | shorthand hskip hopened _ =>
      rw [hopened] at hrest
      have hbracket : ClosesWithout t.HasValue (.square :: d.opened) ("]" :: _) :=
        (hrest.behindEllipsis hskip).closing
      have hword : ClosesWithout t.HasValue (.square :: d.opened) ("options" :: "]" :: _) :=
        hbracket.word (by decide)
      exact hword.opening
    | closing hskip hopened _ =>
      rw [hopened]
      exact (hrest.behindEllipsis hskip).closing
    | word htoken hskip hopened _ =>
      rw [hopened] at hrest
      exact (hrest.behindEllipsis hskip).word htoken
    | options htoken htakes hskip hopened hslots =>
      rw [hopened] at hrest
      refine (hrest.behindEllipsis hskip).options htoken htakes ?_
      intro o ho v hvalue
      exact ⟨o, slots_subset_of_run h (hslots o ho), hvalue⟩
  | case3 => cases h

end Draft

/-- **Only a bracket that an option takes goes unmatched.** Of the tokens of a pattern that is read, the
brackets are properly nested and matched by kind when the tokens are set aside that stand behind an option
and are the value of one; and all of them are if no option of the pattern has a bracket for its value. -/
theorem nested_without_values {r : Registry} {source : String} {t : Tree}
    (h : (parsePattern r source).outcome = .ok t) :
    (∃ kept, WithoutValues t.HasValue (tokenize source) kept ∧ Nested kept) ∧
      ((∀ v, t.HasValue v → ¬ IsBracket v) → Nested (tokenize source)) := by
  rw [parsePattern_eq_run] at h
  obtain ⟨kept, hkept, hcloses⟩ := Draft.closesWithout_of_run h
  refine ⟨⟨kept, hkept, (nested_iff_closes kept).mpr hcloses⟩, ?_⟩
  intro hvalues
  rw [nested_iff_closes, hkept.closes_eq hvalues]
  exact hcloses

/-- The value of the option is a bar, which is no bracket. -/
theorem nested_without_values_sample :
    let r : Registry := [.ofLong "--to" 1]
    let source := "[(a --to | b)]"
    let t : Tree := ⟨[.keyword "a", .option ⟨none, some "--to", 1, .str "|"⟩, .keyword "b"],
      .required [.optional [.required [.leaf 0, .leaf 1, .leaf 2]]]⟩
    (parsePattern r source).outcome = .ok t ∧
      (∃ kept, WithoutValues t.HasValue (tokenize source) kept ∧ Nested kept) ∧
      (∀ v, t.HasValue v → ¬ IsBracket v) ∧ Nested (tokenize source) := by
  intro r source t
  have hread : (parsePattern r source).outcome = .ok t := by cbv
  have hvalues : ∀ v, t.HasValue v → ¬ IsBracket v := by
    rintro v ⟨o, ho, hvalue⟩
    obtain rfl : o = ⟨none, some "--to", 1, .str "|"⟩ := by simpa [t, Leaf.keyword] using ho
    obtain rfl : "|" = v := Value.str.inj hvalue
    decide
  obtain ⟨hkept, hnested⟩ := nested_without_values hread
  exact ⟨hread, hkept, hvalues, hnested hvalues⟩

/-- A bracket that is never closed is the value of the option before it, and the pattern is read. -/
theorem parsePattern_swallows_bracket :
    let r : Registry := [.ofLong "--to" 1]
    let source := "--to ("
    let t : Tree := ⟨[.option ⟨none, some "--to", 1, .str "("⟩], .required [.leaf 0]⟩
    (parsePattern r source).outcome = .ok t ∧ ¬ Nested (tokenize source) := by
  intro r source t
  have htokens : tokenize source = ["--to", "("] := by cbv
  have hread : (parsePattern r source).outcome = .ok t := by cbv
  refine ⟨hread, ?_⟩
  rw [htokens]
  decide

end Synopsis
