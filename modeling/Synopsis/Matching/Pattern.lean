import Synopsis.Matching.Basic
import Synopsis.Tree.Basic

/-!
# Matching a pattern

The leaves of a pattern are matchers of their own. An argument takes the first positional word and
binds it; a command takes it if it is the command's name; an option takes all its occurrences; the
shorthand for options takes all options. The groups of a pattern combine the matchers of their
children.
-/

namespace Synopsis

/-! ## Positional words -/

/-- The value of the first positional word, and the leaves without it. -/
def takePositional? : List Leaf → Option (Value × List Leaf)
  | [] => none
  | .argument none v :: ls => some (v, ls)
  | l :: ls => (takePositional? ls).map fun r => (r.1, l :: r.2)

/-- Put a word at the end of the first list bound to the name, or bind the name to a new list. -/
def appendTo (name : Option String) (word : String) : List Leaf → List Leaf
  | [] => [.argument name (.list [word])]
  | .argument n (.list ws) :: ls =>
    if n = name then .argument n (.list (ws ++ [word])) :: ls
    else .argument n (.list ws) :: appendTo name word ls
  | l :: ls => l :: appendTo name word ls

/-- Bind a word to an argument: one whose value is a list collects it, any other takes it as its
only text. -/
def bindWord (name : Option String) (value : Value) (word : String) (bound : List Leaf) :
    List Leaf :=
  if value.isList then appendTo name word bound else bound ++ [.argument name (.str word)]

/-! ## Leaves -/

/-- The argument takes the first positional word. -/
def matchArgument (name : Option String) (value : Value) : Matcher := fun s =>
  match takePositional? s.left with
  | some (v, rest) => .success ⟨rest, bindWord name value v.text s.collected⟩
  | none => .failure s

/-- The command takes the first positional word if it is the command's name. -/
def matchCommand (name : String) : Matcher := fun s =>
  match takePositional? s.left with
  | some (v, rest) =>
    if v = .str name then .success ⟨rest, s.collected ++ [.command name true]⟩ else .failure s
  | none => .failure s

/-- Take all leaves for which the test holds; there has to be one. -/
def matchAllOf (test : Leaf → Bool) : Matcher := fun s =>
  { left := s.left.filter fun l => !test l
    collected := s.collected
    matched := s.left.any test }

/-- The leaf is an occurrence of the option. -/
def Leaf.isOccurrenceOf (o : Opt) : Leaf → Bool
  | option p => p.sameNames o
  | _ => false

/-- The matcher of a leaf. -/
def Leaf.matcher : Leaf → Matcher
  | argument name value => matchArgument name value
  | command name _ => matchCommand name
  | option o => matchAllOf (Leaf.isOccurrenceOf o)
  | anyOptions => matchAllOf Leaf.isOption

/-! ## Groups -/

namespace Pattern

mutual

/-- The matcher of a pattern. -/
def matcher : Pattern Leaf → Matcher
  | leaf l => l.matcher
  | required ps => .all (matchers ps)
  | optional ps => .each (matchers ps)
  | either ps => .fewest (matchers ps)
  | oneOrMore p => .many p.matcher

/-- The matchers of several patterns. -/
def matchers : List (Pattern Leaf) → List Matcher
  | [] => []
  | p :: ps => p.matcher :: matchers ps

end

theorem matchers_eq_map (ps : List (Pattern Leaf)) : matchers ps = ps.map matcher := by
  induction ps with
  | nil => rfl
  | cons p ps ih => simp [matchers, ih]

end Pattern

namespace Tree

theorem matchers_resolve (t : Tree) (ps : List (Pattern Nat)) :
    Pattern.matchers (Pattern.mapAll t.leafAt ps) = ps.map fun p => (t.resolve p).matcher := by
  rw [Pattern.matchers_eq_map, Pattern.mapAll_eq_map, List.map_map]
  rfl

theorem matcher_required (t : Tree) (ps : List (Pattern Nat)) :
    (t.resolve (.required ps)).matcher = .all (ps.map fun p => (t.resolve p).matcher) :=
  congrArg Matcher.all (t.matchers_resolve ps)

theorem matcher_optional (t : Tree) (ps : List (Pattern Nat)) :
    (t.resolve (.optional ps)).matcher = .each (ps.map fun p => (t.resolve p).matcher) :=
  congrArg Matcher.each (t.matchers_resolve ps)

theorem matcher_either (t : Tree) (ps : List (Pattern Nat)) :
    (t.resolve (.either ps)).matcher = .fewest (ps.map fun p => (t.resolve p).matcher) :=
  congrArg Matcher.fewest (t.matchers_resolve ps)

theorem matcher_oneOrMore (t : Tree) (p : Pattern Nat) :
    (t.resolve (.oneOrMore p)).matcher = .many (t.resolve p).matcher := rfl

/-- Match a part of the tree, with bindings made before. -/
def matchNode (t : Tree) (node : Pattern Nat) (left collected : List Leaf) : Outcome :=
  (t.resolve node).matcher ⟨left, collected⟩

/-- Match the leaves of an invocation against the tree. -/
def matchLeaves (t : Tree) (left : List Leaf) : Outcome := t.matchNode t.root left []

end Tree

end Synopsis
