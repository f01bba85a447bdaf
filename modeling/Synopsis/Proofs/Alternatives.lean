import Synopsis.Proofs.Equations
import Synopsis.Proofs.Lines

/-!
# The alternatives of a usage

A usage of several lines is a choice between them. It takes an invocation exactly if one of its lines
would take it as the only line, and then all is as if the first such line were the only one: lines
before it that fit and leave something lose, and lines behind it are not heard
(`Tree.matchLeaves_withLines`). So lines may be added to a usage anywhere without an invocation being
refused for it, and added behind the line that an invocation follows they change nothing for it.
-/

namespace Synopsis.Tree

/-- The tree of a usage of one line, over the slots of the given tree. -/
def withLine (t : Tree) (p : Pattern Nat) : Tree := { t with root := .required [p] }

/-- The tree of a usage of several lines, over the slots of the given tree. -/
def withLines (t : Tree) (ps : List (Pattern Nat)) : Tree := { t with root := .required [.either ps] }

theorem matchLeaves_withLine (t : Tree) (p : Pattern Nat) (left : List Leaf) :
    (t.withLine p).matchLeaves left = t.matchNode p left [] :=
  t.matchAlike_singleton p left []

theorem matchLeaves_withLines_eq (t : Tree) (ps : List (Pattern Nat)) (left : List Leaf) :
    (t.withLines ps).matchLeaves left = t.matchNode (.either ps) left [] :=
  t.matchAlike_singleton (.either ps) left []

theorem isComplete_withLines_iff (t : Tree) (ps : List (Pattern Nat)) (left : List Leaf) :
    ((t.withLines ps).matchLeaves left).isComplete = true ↔
      ∃ p ∈ ps, ((t.withLine p).matchLeaves left).isComplete = true := by
  simp only [matchLeaves_withLines_eq, matchLeaves_withLine]
  exact completes_either_iff

/-- If a line takes all leaves and no line before it does, it alone counts. -/
theorem matchLeaves_withLines_append {t : Tree} {before : List (Pattern Nat)} {p : Pattern Nat}
    {left : List Leaf}
    (hbefore : ∀ q ∈ before, ((t.withLine q).matchLeaves left).isComplete = false)
    (hp : ((t.withLine p).matchLeaves left).isComplete = true) (after : List (Pattern Nat)) :
    (t.withLines (before ++ p :: after)).matchLeaves left = (t.withLine p).matchLeaves left := by
  rw [matchLeaves_withLine] at hp ⊢
  rw [matchLeaves_withLines_eq, matchNode, matcher_either, List.map_append, List.map_cons]
  refine Matcher.fewest_append_of_isComplete ?_ hp _
  intro m hm
  obtain ⟨q, hq, rfl⟩ := List.mem_map.mp hm
  rw [← hbefore q hq, matchLeaves_withLine]
  rfl

/-- The first line that takes all leaves, if there is one, alone counts. -/
theorem matchLeaves_withLines_of_find? {t : Tree} {ps : List (Pattern Nat)} {p : Pattern Nat}
    {left : List Leaf}
    (h : ps.find? (fun p => ((t.withLine p).matchLeaves left).isComplete) = some p) :
    (t.withLines ps).matchLeaves left = (t.withLine p).matchLeaves left := by
  obtain ⟨hp, before, after, rfl, hbefore⟩ := List.find?_eq_some_iff_append.mp h
  refine matchLeaves_withLines_append ?_ hp after
  intro q hq
  exact Bool.not_eq_true' _ ▸ hbefore q hq

/-- **The first line that fits all counts.** Take any slots, any lines over them and any leaves. The
usage of all the lines takes the leaves if and only if one of the lines takes them as the only line, and
then it has the outcome of the first such line. So a usage that takes the leaves still does when lines
are added anywhere, and it has the same outcome when they are added behind a line that takes them. -/
theorem matchLeaves_withLines (t : Tree) (ps : List (Pattern Nat)) (left : List Leaf) :
    (((t.withLines ps).matchLeaves left).isComplete = true ↔
      ∃ p ∈ ps, ((t.withLine p).matchLeaves left).isComplete = true) ∧
    (∀ p, ps.find? (fun p => ((t.withLine p).matchLeaves left).isComplete) = some p →
      (t.withLines ps).matchLeaves left = (t.withLine p).matchLeaves left) ∧
    (∀ more, ps.Sublist more → ((t.withLines ps).matchLeaves left).isComplete = true →
      ((t.withLines more).matchLeaves left).isComplete = true) ∧
    ∀ before after, ps = before ++ after →
      (∃ p ∈ before, ((t.withLine p).matchLeaves left).isComplete = true) →
      ∀ new, (t.withLines (before ++ new ++ after)).matchLeaves left =
        (t.withLines ps).matchLeaves left := by
  refine ⟨t.isComplete_withLines_iff ps left, ?_, ?_, ?_⟩
  · intro p hp
    exact matchLeaves_withLines_of_find? hp
  · intro more hmore h
    obtain ⟨p, hp, hcomplete⟩ := (t.isComplete_withLines_iff ps left).mp h
    exact (t.isComplete_withLines_iff more left).mpr ⟨p, hmore.subset hp, hcomplete⟩
  · rintro before after rfl hbefore new
    -- the first line that takes the leaves is among those before, whatever comes behind them
    obtain ⟨p, hfirst⟩ := Option.isSome_iff_exists.mp (List.find?_isSome.mpr hbefore)
    rw [matchLeaves_withLines_of_find? (p := p), matchLeaves_withLines_of_find? (p := p)]
    · rw [List.find?_append, hfirst, Option.some_or]
    · rw [List.append_assoc, List.find?_append, hfirst, Option.some_or]

/-- Of the lines `go`, `go FILE` and `FILE NAME` the first fits and leaves a word, the other two take both
words. The second counts; a line `NAME FILE` added behind it changes nothing. -/
theorem matchLeaves_withLines_errand :
    let t : Tree := ⟨[.keyword "go", .placeholder "FILE", .placeholder "NAME"], .required []⟩
    let go : Pattern Nat := .leaf 0
    let goFile : Pattern Nat := .required [.leaf 0, .leaf 1]
    let fileName : Pattern Nat := .required [.leaf 1, .leaf 2]
    let nameFile : Pattern Nat := .required [.leaf 2, .leaf 1]
    let left : List Leaf := [.positional "go", .positional "x"]
    let outcome : Outcome := .success ⟨[], [.command "go" true, .argument (some "FILE") (.str "x")]⟩
    ((t.withLine go).matchLeaves left).matched = true ∧
    [go, goFile, fileName].find? (fun p => ((t.withLine p).matchLeaves left).isComplete) =
      some goFile ∧
    (t.withLines [go, goFile, fileName]).matchLeaves left = outcome ∧
    ((t.withLines [nameFile, go, goFile, fileName]).matchLeaves left).isComplete = true ∧
    (t.withLines [go, goFile, nameFile, fileName]).matchLeaves left = outcome := by
  intro t go goFile fileName nameFile left outcome
  have hgo : (t.withLine go).matchLeaves left = .success ⟨[.positional "x"], [.command "go" true]⟩ := by
    cbv
  have hgoFile : (t.withLine goFile).matchLeaves left = outcome := by cbv
  have hcomplete : ((t.withLine goFile).matchLeaves left).isComplete = true := by
    rw [hgoFile]
    rfl
  have hfirst : [go, goFile, fileName].find?
      (fun p => ((t.withLine p).matchLeaves left).isComplete) = some goFile := by
    rw [List.find?_cons_of_neg (by rw [hgo]; exact Bool.false_ne_true)]
    exact List.find?_cons_of_pos hcomplete
  obtain ⟨htakes, hcounts, hanywhere, hbehind⟩ :=
    t.matchLeaves_withLines [go, goFile, fileName] left
  have hlines := htakes.mpr ⟨goFile, List.mem_cons_of_mem go List.mem_cons_self, hcomplete⟩
  refine ⟨congrArg Outcome.matched hgo, hfirst, (hcounts goFile hfirst).trans hgoFile,
    hanywhere _ (List.sublist_cons_self _ _) hlines, ?_⟩
  rw [← hgoFile, ← hcounts goFile hfirst]
  exact hbehind [go, goFile] [fileName] rfl
    ⟨goFile, List.mem_cons_of_mem go List.mem_cons_self, hcomplete⟩ [nameFile]

end Synopsis.Tree
