import ScriptLowering.Lowering.Context
import ScriptLowering.Source.Text
import ScriptLowering.Token.Comment

/-!
# Settings

Settings are written as `key = value` lines under `[section]` headers, with `#` comments. The
sections `lower` and `scan` are read and know all their keys; other sections are left alone. A
key that is not set keeps its default, and the last assignment of a key counts.
-/

namespace ScriptLowering

/-- How a source is scanned and lowered. -/
structure Settings where
  lower : Lowering.Options := {}
  scan : Token.ScanOptions := {}
deriving DecidableEq, Repr, Inhabited

namespace Settings

/-- What can be wrong with a line of settings. -/
inductive Fault where
  | notAssignment (line : String)
  /-- A text value that is empty, or opened by a quote and not closed. -/
  | notText (key : String)
  | notSwitch (key : String)
  | unknownKey (key section_ : String)
deriving DecidableEq, Repr, Inhabited

def Fault.message : Fault → String
  | notAssignment line => s!"expected 'key = value', found '{line}'"
  | notText key => s!"'{key}' must be a non-empty string"
  | notSwitch key => s!"'{key}' must be true or false"
  | unknownKey key section_ => s!"unknown key '{key}' in [{section_}]"

/-- A line, told apart by its shape. -/
inductive Line where
  | blank
  /-- `[name]`: the lines after it belong to that section. -/
  | header (name : String)
  /-- `key = value`, the value as written. -/
  | assignment (key : String) (value : List Char)
  | other (text : String)
deriving DecidableEq, Repr, Inhabited

/-- Drop a comment: all from the first `#` on that is not between quotes. -/
def withoutComment (quoted : Bool) : List Char → List Char
  | [] => []
  | '#' :: cs => if quoted then '#' :: withoutComment quoted cs else []
  | '"' :: cs => '"' :: withoutComment (!quoted) cs
  | c :: cs => c :: withoutComment quoted cs

/-- What stands between the brackets of a text `[...]`. -/
def bracketed? (text : List Char) : Option (List Char) :=
  match text with
  | '[' :: rest => if rest.getLast? = some ']' then some rest.dropLast else none
  | _ => none

/-- Read one line. Quotes around a key do not belong to it. -/
def Line.ofText (text : List Char) : Line :=
  let text := Text.trim (withoutComment false text)
  if text.isEmpty then .blank
  else match bracketed? text with
    | some name => .header (String.ofList (Text.trim name))
    | none =>
      match Text.cutAt? '=' text with
      | some (key, value) =>
        .assignment (String.ofList (Text.trimBy (· == '"') (Text.trim key))) value
      | none => .other (String.ofList text)

/-- A text value: bare, or between quotes. -/
def textValue? (value : List Char) : Option String :=
  let value := Text.trim value
  let text? := match value with
    | '"' :: rest => if rest.getLast? = some '"' then some rest.dropLast else none
    | _ => some value
  text?.bind fun text => if text.isEmpty then none else some (String.ofList text)

/-- A switch: `true` or `false`. -/
def switchValue? (value : List Char) : Option Bool :=
  match String.ofList (Text.trim value) with
  | "true" => some true
  | "false" => some false
  | _ => none

/-- A setting: its section, its key, and how its value is taken over. -/
inductive Entry where
  | text (key : String) (set : String → Settings → Settings)
  | switch (key : String) (set : Bool → Settings → Settings)

def Entry.key : Entry → String
  | text key _ | switch key _ => key

/-- The entries of the sections that are read. -/
def entriesOf (section_ : String) : Option (List Entry) :=
  match section_ with
  | "lower" => some [
      .text "container_get" fun value s => { s with lower.containerGet := value },
      .text "container_set" fun value s => { s with lower.containerSet := value },
      .text "discard_prefix" fun value s => { s with lower.discardPrefix := value }]
  | "scan" => some [
      .switch "strict_literals" fun value s => { s with scan.strictLiterals := value }]
  | _ => none

/-- Take over the value of an entry. -/
def Entry.assign (entry : Entry) (value : List Char) (settings : Settings) :
    Except Fault Settings :=
  match entry with
  | text key set =>
    match textValue? value with
    | some value => .ok (set value settings)
    | none => .error (.notText key)
  | switch key set =>
    match switchValue? value with
    | some value => .ok (set value settings)
    | none => .error (.notSwitch key)

/-- Take over `key = value` found in a section. -/
def assign (section_ key : String) (value : List Char) (settings : Settings) :
    Except Fault Settings :=
  match entriesOf section_ with
  | none => .ok settings
  | some entries =>
    match entries.find? fun entry => entry.key == key with
    | some entry => entry.assign value settings
    | none => .error (.unknownKey key section_)

/-- A fault on a line of the file `path`. -/
def Fault.report (fault : Fault) (path : String) (line : Nat) : Diagnostic :=
  .error .settings s!"{path}:{line}: {fault.message}" .origin

/-- Read lines from number `line` on, within a section. -/
def ofLines (path : String) (settings : Settings) (section_ : String) (line : Nat) :
    List Line → Except Diagnostic Settings
  | [] => .ok settings
  | .blank :: lines => ofLines path settings section_ (line + 1) lines
  | .header name :: lines => ofLines path settings name (line + 1) lines
  | .assignment key value :: lines =>
    match assign section_ key value settings with
    | .ok settings => ofLines path settings section_ (line + 1) lines
    | .error fault => .error (fault.report path line)
  | .other text :: _ => .error (Fault.report (.notAssignment text) path line)

/-- Read settings; `path` only labels the reports. -/
def ofText (path text : String) : Except Diagnostic Settings :=
  ofLines path {} "" 1 ((Text.pieces '\n' text.toList).map Line.ofText)

end Settings

end ScriptLowering
