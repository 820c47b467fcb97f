import ScriptLowering.FileTree.Path

/-!
# Requests

The words of a command line as a request. Switches that hold for every command may stand before
its name or after it; a value after the name counts more. `--` ends the switches, and a lone
`-` is no switch.
-/

namespace ScriptLowering.CommandLine

/-- The switches of all commands. -/
inductive Switch where
  /-- Ask for a log. -/
  | verbose
  /-- Name a settings file. -/
  | config
  /-- Name a directory for the results. -/
  | output
  | help
  | version
deriving DecidableEq, Repr, Inhabited

namespace Switch

def long : Switch → String
  | verbose => "verbose"
  | config => "config"
  | output => "output"
  | help => "help"
  | version => "version"

def short? : Switch → Option Char
  | verbose => some 'v'
  | config => none
  | output => some 'o'
  | help => some 'h'
  | version => some 'V'

def takesValue : Switch → Bool
  | config | output => true
  | verbose | help | version => false

end Switch

/-- Why words do not give a request. -/
inductive Stop where
  /-- The words ask for an explanation of the commands. -/
  | help
  | version
  /-- The words are not understood. -/
  | misuse (message : String)
deriving DecidableEq, Repr, Inhabited

/-- What may stand among the words for one command, or before its name. -/
structure Level where
  switches : List Switch
  /-- The most operands there may be, if there is a bound. -/
  operandLimit : Option Nat
deriving DecidableEq, Repr, Inhabited

/-- What was found among the words. -/
structure Collected where
  seen : List Switch := []
  values : List (Switch × Path) := []
  operands : List Path := []
deriving DecidableEq, Repr, Inhabited

namespace Collected

/-- A switch was met. None may be met twice, and a question about the program is answered at
once. -/
def meet (found : Collected) (switch : Switch) : Except Stop Collected :=
  match switch with
  | .help => .error .help
  | .version => .error .version
  | _ =>
    if found.seen.contains switch then
      .error (.misuse s!"'--{switch.long}' cannot be used twice")
    else .ok { found with seen := switch :: found.seen }

/-- A switch was given a value, which is always a path and never empty. -/
def give (found : Collected) (switch : Switch) (value : String) : Except Stop Collected :=
  if value.isEmpty then .error (.misuse s!"'--{switch.long}' needs a value")
  else .ok { found with values := (switch, .ofString value) :: found.values }

/-- An operand was met. -/
def operand (level : Level) (found : Collected) (word : String) : Except Stop Collected :=
  if word.isEmpty then .error (.misuse "an empty path")
  else if level.operandLimit.any (· ≤ found.operands.length) then
    .error (.misuse s!"unexpected argument '{word}'")
  else .ok { found with operands := found.operands ++ [.ofString word] }

end Collected

/-- Read a cluster of one-letter switches. The rest of it is the value of the first switch that
takes one; with nothing left the value is the next word. -/
def readCluster (level : Level) (found : Collected) :
    List Char → Except Stop (Collected × Option Switch)
  | [] => .ok (found, none)
  | c :: cs =>
    match level.switches.find? fun switch => switch.short? == some c with
    | none => .error (.misuse s!"unexpected argument '-{c}'")
    | some switch => do
      let found ← found.meet switch
      if !switch.takesValue then readCluster level found cs
      else match cs with
        | [] => return (found, some switch)
        | '=' :: value => return (← found.give switch (String.ofList value), none)
        | value => return (← found.give switch (String.ofList value), none)

/-- Read a long switch, with its value after `=` if it has one there. -/
def readLong (level : Level) (found : Collected) (text : List Char) :
    Except Stop (Collected × Option Switch) :=
  let name := String.ofList (text.takeWhile (· != '='))
  match level.switches.find? fun switch => switch.long == name with
  | none => .error (.misuse s!"unexpected argument '--{name}'")
  | some switch => do
    let found ← found.meet switch
    match text.dropWhile (· != '='), switch.takesValue with
    | [], takes => return (found, if takes then some switch else none)
    | _ :: value, true => return (← found.give switch (String.ofList value), none)
    | _ :: _, false => throw (.misuse s!"'--{name}' takes no value")

/-- Read the words of a command. `pending` is a switch whose value has to come next. -/
def readWords (level : Level) (found : Collected) (pending : Option Switch) :
    List String → Except Stop Collected
  | [] =>
    match pending with
    | none => .ok found
    | some switch => .error (.misuse s!"'--{switch.long}' needs a value")
  | word :: words =>
    match pending, word.toList with
    | some switch, '-' :: _ :: _ => .error (.misuse s!"'--{switch.long}' needs a value")
    | some switch, _ => do readWords level (← found.give switch word) none words
    | none, ['-', '-'] => words.foldlM (Collected.operand level) found
    | none, '-' :: '-' :: text => do
      let (found, pending) ← readLong level found text
      readWords level found pending words
    | none, '-' :: c :: cs => do
      let (found, pending) ← readCluster level found (c :: cs)
      readWords level found pending words
    | none, _ => do readWords level (← found.operand level word) none words

/-- The words before the name of the command and, beginning with it, those after them. The
name is the first word that is neither a switch nor, with `pending`, the value of one; after
`--` there is none. -/
def splitCommand (pending : Bool) : List String → List String × List String
  | [] => ([], [])
  | word :: words =>
    match pending, word.toList with
    | false, ['-', '-'] => (word :: words, [])
    | false, '-' :: _ :: _ =>
      let (before, after) := splitCommand (word == "--config") words
      (word :: before, after)
    | true, _ =>
      let (before, after) := splitCommand false words
      (word :: before, after)
    | false, _ => ([], word :: words)

/-- What the program is to do. -/
inductive Command where
  /-- Lower files, and print the results or write them to a directory. -/
  | lower (inputs : List Path) (output : Option Path)
  /-- Check files. -/
  | check (inputs : List Path)
  /-- Print the tokens of a file. -/
  | tokens (input : Path)
deriving DecidableEq, Repr, Inhabited

/-- A command with the settings file it is to use. -/
structure Request where
  command : Command
  config : Option Path
deriving DecidableEq, Repr, Inhabited

/-- The names of the commands. -/
def commandNames : List String := ["lower", "check", "tokens", "help"]

/-- Before the name of a command: only switches. -/
def Level.program : Level := ⟨[.verbose, .config, .help, .version], some 0⟩

/-- After the name of a command. -/
def Level.ofCommand? : String → Option Level
  | "lower" => some ⟨[.verbose, .config, .output, .help], none⟩
  | "check" => some ⟨[.verbose, .config, .help], none⟩
  | "tokens" => some ⟨[.verbose, .config, .help], some 1⟩
  | _ => none

/-- The command that was named, with what was found after the name. -/
def Command.ofCollected (name : String) (found : Collected) : Except Stop Command :=
  match name, found.operands with
  | _, [] => .error (.misuse "no input given")
  | "lower", inputs => .ok (.lower inputs (found.values.lookup .output))
  | "check", inputs => .ok (.check inputs)
  | _, input :: _ => .ok (.tokens input)

/-- The request that the words of a command line make. -/
def Request.ofWords (words : List String) : Except Stop Request := do
  let (before, after) := splitCommand false words
  let outer ← readWords .program {} none before
  match after with
  | [] => throw (.misuse "no command given")
  | "help" :: topics =>
    match topics with
    | [] => throw .help
    | [topic] =>
      if commandNames.contains topic then throw .help else throw (.misuse s!"no command '{topic}'")
    | _ => throw (.misuse "more than one command")
  | name :: words =>
    match Level.ofCommand? name with
    | none => throw (.misuse s!"no command '{name}'")
    | some level => do
      let inner ← readWords level {} none words
      let command ← Command.ofCollected name inner
      return { command, config := inner.values.lookup .config <|> outer.values.lookup .config }

end ScriptLowering.CommandLine
