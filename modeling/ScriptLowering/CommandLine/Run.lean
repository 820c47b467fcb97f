import ScriptLowering.CommandLine.Request
import ScriptLowering.Pipeline
import ScriptLowering.Settings.Discovery

/-!
# Running a request

All inputs are read and worked on before anything is written. A failing input does not keep the
others from being finished; the exit code tells that there was one. How a report looks and how
words are read is left open until the end.
-/

namespace ScriptLowering.CommandLine

/-- What a run leaves: its exit code, what it prints, and what it reports beside that. -/
structure Outcome where
  code : Nat := 0
  output : String := ""
  reports : String := ""
deriving DecidableEq, Repr, Inhabited

/-- One outcome after the other; a failure anywhere is a failure. -/
def Outcome.andThen (first second : Outcome) : Outcome where
  code := max first.code second.code
  output := first.output ++ second.output
  reports := first.reports ++ second.reports

section Files

-- The text of a report on a file.
variable (render : Path → Diagnostic → String) {m : Type → Type} [Monad m]

/-- The text of all reports of a stage that failed. -/
def failureReport (file : Path) : Failure → String
  | .reports ds => String.join (ds.map (render file))
  | .outOfFuel => s!"{file.text}: the work did not come to an end\n"

/-- The settings for an input: those of the file that was named, or the nearest ones. -/
def settingsFor (files : FileAccess m) (config : Option Path) (input : Path) :
    m (Except String Settings) := do
  let found ← match config with
    | some path => Settings.load files path
    | none => Settings.discover files (input.parent?.getD (.ofString "."))
  match found with
  | .ok found => return .ok found.settings
  | .error d => return .error s!"error: {d.message}"

/-- The settings for an input, and its text. -/
def openInput (files : FileAccess m) (config : Option Path) (input : Path) :
    m (Except String (Settings × String)) := do
  match ← settingsFor files config input with
  | .error message => return .error message
  | .ok settings =>
    match ← files.read input with
    | .ok source => return .ok (settings, source)
    | .error error => return .error s!"error: cannot read '{input.text}': {error.message}"

/-! ## Lowering -/

/-- What became of one input: the lowered text, unless it failed, and the reports. -/
structure Result where
  input : Path
  text? : Option String
  reports : String
deriving DecidableEq, Repr, Inhabited

/-- Lower the text of one input. -/
def lowerText (input : Path) (settings : Settings) (source : String) : Result :=
  match SourceFile.lowerSource settings source with
  | .ok lowered =>
    ⟨input, some lowered.text, String.join (lowered.warnings.map (render input))⟩
  | .error failure => ⟨input, none, failureReport render input failure⟩

def lowerInput (files : FileAccess m) (config : Option Path) (input : Path) : m Result := do
  match ← openInput files config input with
  | .ok (settings, source) => return lowerText render input settings source
  | .error message => return ⟨input, none, message ++ "\n"⟩

/-- Write the text of an input into a directory, under the name of the input. -/
def writeResult (files : FileAccess m) (directory input : Path) (text : String) :
    m (Except String Unit) := do
  match input.fileName? with
  | none => return .error s!"error: '{input.text}' has no file name"
  | some name =>
    match ← files.makeDirectories directory with
    | .error error => return .error s!"error: cannot create '{directory.text}': {error.message}"
    | .ok () =>
      let path := directory.join name
      match ← files.write path text with
      | .ok () => return .ok ()
      | .error error => return .error s!"error: cannot write '{path.text}': {error.message}"

/-- Print or write one result. -/
def deliver (files : FileAccess m) (output : Option Path) (result : Result) : m Outcome := do
  match result.text?, output with
  | none, _ => return { code := 1, reports := result.reports }
  | some text, none => return { output := text, reports := result.reports }
  | some text, some directory =>
    match ← writeResult files directory result.input text with
    | .ok () => return { reports := result.reports ++ s!"OK: {result.input.text}\n" }
    | .error message => return { code := 1, reports := result.reports ++ message ++ "\n" }

/-! ## Checking and scanning -/

/-- Check one input. What keeps it from being read is reported without a line end. -/
def checkInput (files : FileAccess m) (config : Option Path) (input : Path) : m Outcome := do
  match ← openInput files config input with
  | .error message => return { code := 1, reports := message }
  | .ok (settings, source) =>
    match SourceFile.checkSource settings source with
    | .ok () => return { reports := s!"OK: {input.text}\n" }
    | .error failure => return { code := 1, reports := failureReport render input failure }

/-- The number of line breaks among the first `bytes` bytes. -/
def breaksBefore (bytes : Nat) : List Char → Nat
  | [] => 0
  | c :: cs =>
    if bytes = 0 then 0
    else (if c = '\n' then 1 else 0) + breaksBefore (bytes - c.utf8Size) cs

/-- A token on a line: the line it stands on, its kind and its text. -/
def tokenLine (source : List Char) (token : Token) : String :=
  let line := toString (breaksBefore token.span.start source + 1)
  let kind := Text.padRight 14 token.kind.name
  s!"{Text.padLeft 4 line}  {kind} {token.text}\n"

def tokensOfInput (files : FileAccess m) (config : Option Path) (input : Path) : m Outcome := do
  match ← openInput files config input with
  | .error message => return { code := 1, reports := message ++ "\n" }
  | .ok (settings, source) =>
    match Token.ofSource settings.scan 0 source with
    | .ok tokens => return { output := String.join (tokens.map (tokenLine source.toList)) }
    | .error ds => return { code := 1, reports := failureReport render input (.reports ds) }

/-! ## Requests -/

def perform (files : FileAccess m) (request : Request) : m Outcome := do
  match request.command with
  | .lower inputs output => do
    let results ← inputs.mapM (lowerInput render files request.config)
    let outcomes ← results.mapM (deliver files output)
    return outcomes.foldl Outcome.andThen {}
  | .check inputs => do
    let outcomes ← inputs.mapM (checkInput render files request.config)
    return outcomes.foldl Outcome.andThen {}
  | .tokens input => tokensOfInput render files request.config input

/-- Run the words of a command line, with a way to read them. `usage` explains them. -/
def runWith (ofWords : List String → Except Stop Request) (usage : String) (files : FileAccess m)
    (words : List String) : m Outcome := do
  match ofWords words with
  | .ok request => perform render files request
  | .error .help => return { output := usage }
  | .error .version => return { output := "gopawn 0.1.0\n" }
  | .error (.misuse message) => return { code := 2, reports := s!"error: {message}\n" ++ usage }

end Files

/-! ## At a terminal -/

/-- The text of a report for a reader at a terminal: a coloured headline, the place, and the
notes. -/
def report (file : Path) (d : Diagnostic) : String :=
  let (colour, label) := if d.isError then ("31", "Error") else ("33", "Warning")
  let lines :=
    [s!"\x1b[{colour}m{label}:\x1b[0m {d.cause.describe}: {d.message}",
      s!"  --> {file.text}, bytes {d.span.start} to {d.span.stop}"] ++
    d.notes.map ("  note: " ++ ·) ++ d.help.toList.map ("  help: " ++ ·)
  String.join (lines.map (· ++ "\n"))

/-- How the program is used. -/
def usage : String :=
  String.join
    ["Usage: gopawn [-v] [--config PATH] COMMAND\n",
      "Commands:\n",
      "  lower INPUT... [-o DIR]  lower files and print the result, or write it to DIR\n",
      "  check INPUT...           check that files use only supported constructs\n",
      "  tokens INPUT             print the tokens of a file\n"]

/-- Run the program on the words of its command line. -/
def run {m : Type → Type} [Monad m] (files : FileAccess m) (words : List String) : m Outcome :=
  runWith report Request.ofWords usage files words

end ScriptLowering.CommandLine
