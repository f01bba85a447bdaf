import Synopsis.Settings
import Synopsis.Settings.Yaml

/-!
# Reading settings from a document

A document of settings is a mapping with at most the three names `help`, `version` and
`unknown_options`, none of them twice. A null leaves a setting open. Whether the document can be read
comes before whether the settings are allowed.
-/

namespace Synopsis.Settings

open Yaml

/-! ## The three settings -/

/-- The words for true. -/
def trueWords : List String := ["true", "yes", "on", "y"]

/-- The words for false. -/
def falseWords : List String := ["false", "no", "off", "n"]

/-- The truth value of a scalar, in any case of letters and with any blanks around it. -/
def readBool? (s : Scalar) : Option Bool :=
  let word := Scalar.lower (String.ofList (Text.trim s.text.toList))
  if trueWords.contains word then some true
  else if falseWords.contains word then some false
  else none

/-- The policy of a scalar, exactly as written. -/
def readPolicy? (s : Scalar) : Option UnknownPolicy :=
  if s.text = "reject" then some .reject
  else if s.text = "register" then some .register
  else none

/-- A setting as a scalar gives it: a null leaves it open, and `none` says that it cannot be read. -/
def readOpen {α : Type} (read : Scalar → Option α) (s : Scalar) : Option (Option α) :=
  if s.isNull then some none else (read s).map some

/-- The settings with the one of the given name read from a scalar. -/
def readField (s : Settings) (key : String) (value : Scalar) : Option Settings :=
  if key = "help" then (readOpen readBool? value).map fun v => { s with help := v }
  else if key = "version" then
    (readOpen (fun v => some v.text) value).map fun v => { s with version := v }
  else if key = "unknown_options" then
    (readOpen readPolicy? value).map fun v => { s with unknownOptions := v }
  else none

/-! ## Whole documents -/

/-- The settings that entries give, unless a name comes twice or an entry cannot be read. -/
def ofEntries? (es : List Entry) : Option Settings :=
  if (es.map fun e => e.1.text).Nodup then
    es.foldlM (fun s e => s.readField e.1.text e.2) Settings.default
  else none

/-- Read settings from a document and check them. -/
def ofYaml (text : String) : Except SettingsFault Settings :=
  match (entries? text).bind ofEntries? with
  | some s => s.validate
  | none => .error .malformed

end Synopsis.Settings
