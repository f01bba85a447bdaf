import Synopsis.Bindings
import Synopsis.Matching.Pattern
import Synopsis.Opt.Description
import Synopsis.Settings
import Synopsis.Tree.Grammar
import Synopsis.Tree.Normal
import Synopsis.Usage

/-!
# Interfaces

An interface is built once from a help text: its usage section, the options that the text describes
or its pattern mentions, and the pattern in normal form. It then reads any number of invocations.
A request for help or for the version is answered before anything is matched. What fits the pattern
becomes bindings: first the defaults of the options, then what was given, each name in the place of
its first binding.
-/

namespace Synopsis

/-- A command-line interface derived from a help text. -/
structure Interface where
  /-- The help text. -/
  doc : String
  /-- Its usage section. -/
  usage : String
  /-- The options it describes or mentions. -/
  options : Registry
  /-- Its pattern in normal form. -/
  tree : Tree
  /-- The settings. -/
  settings : Settings

namespace Interface

/-! ## Building -/

/-- Build the interface of a help text. What fails on the way is handed on as it is. -/
def ofHelp (doc : String) (settings : Settings) : Except Failure Interface :=
  match Usage.sectionOf doc with
  | .error failure => .error failure
  | .ok usage =>
    let parsed := parsePattern (Registry.ofHelp doc) (Usage.formal usage)
    match parsed.outcome with
    | .error failure => .error failure
    | .ok tree => .ok ⟨doc, usage, parsed.registry, tree.normalize, settings⟩

/-- The interface that answers requests for help, or does not. -/
def withHelp (i : Interface) (enabled : Bool) : Interface :=
  { i with settings := { i.settings with help := some enabled } }

/-- The interface that reports the given version. -/
def withVersion (i : Interface) (version : String) : Interface :=
  { i with settings := { i.settings with version := some version } }

/-- The interface with the given policy on unknown options. -/
def withPolicy (i : Interface) (policy : UnknownPolicy) : Interface :=
  { i with settings := { i.settings with unknownOptions := some policy } }

/-! ## Requests -/

/-- The names under which help is asked for. -/
def helpNames : List String := ["-h", "--help"]

/-- The names under which the version is asked for. -/
def versionNames : List String := ["--version"]

/-- The leaf is an option with one of the names, and it is given. -/
def asksFor (names : List String) : Leaf → Bool
  | .option o => names.contains o.name && o.value.isTruthy
  | _ => false

/-- The request that an invocation makes, if it makes one that is answered. Help comes first. -/
def request? (i : Interface) (leaves : List Leaf) : Option Failure :=
  if i.settings.helpEnabled && leaves.any (asksFor helpNames) then some (.help i.doc)
  else
    match i.settings.version with
    | some v => if leaves.any (asksFor versionNames) then some (.version v) else none
    | none => none

/-! ## Bindings -/

/-- The name and value of an option. -/
def optionBinding (o : Opt) : String × Value := (o.name, o.value)

/-- The name and value of a leaf that has a name. -/
def leafBinding? (l : Leaf) : Option (String × Value) := l.name?.map fun name => (name, l.value)

/-- The name and value of an option among the leaves. -/
def occurrenceBinding? (l : Leaf) : Option (String × Value) :=
  if l.isOption then leafBinding? l else none

/-- The name and value of an argument or a command of the pattern. -/
def slotBinding? (l : Leaf) : Option (String × Value) :=
  if l.isWordSlot then leafBinding? l else none

/-- All that is bound, in order: known options, options given, arguments and commands of the
pattern, and what the match has bound. A later entry overrules an earlier one. -/
def assembled (i : Interface) (known : Registry) (leaves collected : List Leaf) :
    List (String × Value) :=
  known.map optionBinding ++ leaves.filterMap occurrenceBinding? ++
    i.tree.leaves.filterMap slotBinding? ++ collected.filterMap leafBinding?

/-! ## Reading an invocation -/

/-- The bindings of leaves that were read, with the options known after reading them. -/
def bindLeaves (i : Interface) (known : Registry) (leaves : List Leaf) : Except Failure Bindings :=
  match i.request? leaves with
  | some failure => .error failure
  | none =>
    let outcome := i.tree.matchLeaves leaves
    if outcome.isComplete then
      .ok (Bindings.empty.insertAll (i.assembled known leaves outcome.collected))
    else .error (.noMatch i.usage)

/-- Read an invocation, without the program's name. What fails in reading it is handed on as it is. -/
def parse (i : Interface) (words : List String) : Except Failure Bindings :=
  let invocation := readInvocation i.settings.mode i.options words
  match invocation.outcome with
  | .error failure => .error failure
  | .ok leaves => i.bindLeaves invocation.registry leaves

end Interface

/-- Read an invocation against a help text with all settings left open. -/
def parseInvocation (doc : String) (words : List String) : Except Failure Bindings :=
  (Interface.ofHelp doc Settings.default).bind fun i => i.parse words

end Synopsis
