import Synopsis.Opt

/-!
# Leaves

A leaf is the smallest part of a pattern and also what the words of an invocation are read into:
a positional argument, a command word, an option, or the shorthand for all options. An argument
without a name is a positional word of an invocation; one with a name belongs to a pattern, or
binds that name.
-/

namespace Synopsis

/-- The smallest part of a pattern or of an invocation. -/
inductive Leaf where
  /-- A positional argument: a place holder when it has a name, a word given when it has none. -/
  | argument (name : Option String) (value : Value)
  /-- A literal word; `given` once it has been met. -/
  | command (name : String) (given : Bool)
  /-- An option. -/
  | option (o : Opt)
  /-- The shorthand that stands for any option. -/
  | anyOptions
  deriving DecidableEq, Repr, Inhabited

namespace Leaf

/-- The place holder of a positional argument, not bound yet. -/
def placeholder (name : String) : Leaf := argument (some name) .null

/-- A positional word of an invocation. -/
def positional (word : String) : Leaf := argument none (.str word)

/-- A literal word of a pattern, not met yet. -/
def keyword (name : String) : Leaf := command name false

/-- The name under which the leaf is reported. -/
def name? : Leaf → Option String
  | argument name _ => name
  | command name _ => some name
  | option o => some o.name
  | anyOptions => none

/-- The value that the leaf holds. -/
def value : Leaf → Value
  | argument _ v => v
  | command _ given => .bool given
  | option o => o.value
  | anyOptions => .null

/-- The leaf is a positional word of an invocation. -/
def isPositional : Leaf → Bool
  | argument none _ => true
  | _ => false

/-- The leaf is an option. -/
def isOption : Leaf → Bool
  | option _ => true
  | _ => false

/-- The leaf is a named place holder or a command: a part of a pattern that words are bound to. -/
def isWordSlot : Leaf → Bool
  | argument _ _ => true
  | command _ _ => true
  | _ => false

/-- A name, or the word for its absence. -/
def shownName (name : Option String) : String := name.getD "None"

/-- The leaf as shown to a reader. -/
def display : Leaf → String
  | argument name v => "Argument(" ++ shownName name ++ ", " ++ v.display ++ ")"
  | command name given => "Command(" ++ name ++ ", " ++ (Value.bool given).display ++ ")"
  | option o =>
    "Option(" ++ shownName o.short ++ ", " ++ shownName o.long ++ ", " ++ toString o.arity ++ ", "
      ++ o.value.display ++ ")"
  | anyOptions => "AnyOptions()"

end Leaf

end Synopsis
