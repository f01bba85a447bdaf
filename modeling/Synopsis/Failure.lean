import Synopsis.Mode

/-!
# Failures

Building an interface or reading an invocation ends in bindings or in one of five ways. Each carries
the text to show: only a malformed usage pattern announces itself by a lead-in.
-/

namespace Synopsis

/-- How an interface cannot be built or an invocation yields no bindings. -/
inductive Failure where
  /-- The usage pattern is malformed. -/
  | grammar (text : String)
  /-- The invocation cannot be read with the known options. -/
  | invocation (text : String)
  /-- The invocation was read and fits no alternative of the usage pattern. -/
  | noMatch (usage : String)
  /-- Help was asked for. -/
  | help (doc : String)
  /-- The version was asked for. -/
  | version (text : String)
  deriving DecidableEq, Repr

namespace Failure

/-- The text to show. -/
def message : Failure → String
  | grammar text => "malformed usage pattern: " ++ text
  | invocation text => text
  | noMatch usage => usage
  | help doc => doc
  | version text => text

/-- The help text is at fault. -/
def isGrammar : Failure → Bool
  | grammar _ => true
  | _ => false

/-- What the user typed is at fault. -/
def isUserError : Failure → Bool
  | invocation _ => true
  | noMatch _ => true
  | _ => false

/-- Nothing is at fault: the user asked to be told something. -/
def isInformational : Failure → Bool
  | help _ => true
  | version _ => true
  | _ => false

end Failure

/-- The failure that a fault amounts to in the given mode: a fault in a pattern is the author's, one
in an invocation the user's. -/
def Mode.failure : Mode → String → Failure
  | grammar, text => .grammar text
  | strict, text => .invocation text
  | lenient, text => .invocation text

end Synopsis
