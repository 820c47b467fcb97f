import ScriptLowering.Source.Span

/-!
# Diagnostics

What a stage reports: a cause, a text, a place, and optional notes and help. An error stops
the stage that raised it; a warning accompanies a result.
-/

namespace ScriptLowering

/-- A source construct that the target grammar cannot express. -/
inductive Construct where
  | labeledJump
  | fallthrough
  | labeledStatement
  | deferredCall
  | concurrentLaunch
  | channelSend
  | channelReceive
  | select
  | typeSwitch
  | typeAssertion
  | sliceExpression
  | imaginaryLiteral
  /-- A map element read or updated where no temporary can be placed. -/
  | mapSubscript
deriving DecidableEq, Repr, Inhabited

namespace Construct

/-- The construct in the words of a message. -/
def name : Construct → String
  | labeledJump => "goto statement"
  | fallthrough => "fallthrough statement"
  | labeledStatement => "labeled statement"
  | deferredCall => "defer statement"
  | concurrentLaunch => "go statement"
  | channelSend => "channel send"
  | channelReceive => "channel receive"
  | select => "select statement"
  | typeSwitch => "type switch"
  | typeAssertion => "type assertion"
  | sliceExpression => "slice expression"
  | imaginaryLiteral => "imaginary literal"
  | mapSubscript => "map subscript in this position"

/-- What to write in its place. -/
def advice : Construct → String
  | labeledJump => "restructure the jump as a loop with break or continue"
  | fallthrough => "merge the case bodies or call a shared function"
  | labeledStatement =>
    "remove the label; labeled break and continue need a flag variable instead"
  | deferredCall => "call the function explicitly before each return"
  | concurrentLaunch => "use a timer or the host's task scheduling instead"
  | channelSend | channelReceive | select =>
    "channels have no counterpart; pass values through function calls"
  | typeSwitch | typeAssertion =>
    "dispatch on a concrete tag value instead of the dynamic type"
  | sliceExpression => "copy the elements with an explicit loop"
  | imaginaryLiteral => "complex numbers are not available"
  | mapSubscript => "read the element into a variable in a separate statement first"

end Construct

/-- Why a stage stopped, or that a warning is none of these. -/
inductive Cause where
  /-- A malformed or unterminated piece of text. -/
  | scan
  /-- The tokens do not form a tree. -/
  | parse
  | illegal (construct : Construct)
  /-- A function declared with more than one receiver binding. -/
  | multipleReceivers
  /-- A result declared with a pointer type. -/
  | pointerResult
  /-- A type annotation was needed and the resolver had no answer. -/
  | typeResolution
  /-- Unreadable or malformed settings. -/
  | settings
  /-- A remark on a successful lowering. -/
  | lint
deriving DecidableEq, Repr, Inhabited

/-- The cause in the words of a report. -/
def Cause.describe : Cause → String
  | scan => "scan error"
  | parse => "parse error"
  | illegal c => s!"illegal construct ({c.name})"
  | multipleReceivers => "multiple receivers"
  | pointerResult => "pointer result"
  | typeResolution => "type resolution error"
  | settings => "configuration error"
  | lint => "lint"

inductive Severity where
  | error
  | warning
deriving DecidableEq, Repr, Inhabited

/-- One report. -/
structure Diagnostic where
  severity : Severity
  cause : Cause
  message : String
  span : Span
  notes : List String := []
  help : Option String := none
deriving DecidableEq, Repr, Inhabited

namespace Diagnostic

/-- A fatal report. -/
def error (cause : Cause) (message : String) (span : Span) : Diagnostic :=
  { severity := .error, cause, message, span }

/-- A remark that does not stop the work. -/
def warning (message : String) (span : Span) : Diagnostic :=
  { severity := .warning, cause := .lint, message, span }

/-- Add a note after those already there. -/
def withNote (d : Diagnostic) (note : String) : Diagnostic :=
  { d with notes := d.notes ++ [note] }

/-- Set the help text; a later one replaces an earlier one. -/
def withHelp (d : Diagnostic) (help : String) : Diagnostic :=
  { d with help := some help }

def isError (d : Diagnostic) : Bool := d.severity == .error

/-- The report on one line: cause, byte range and message. -/
def describe (d : Diagnostic) : String :=
  s!"{d.cause.describe} at {d.span.start}..{d.span.stop}: {d.message}"

/-- A construct met at `span` that the target grammar lacks. -/
def unsupported (construct : Construct) (span : Span) : Diagnostic :=
  (error (.illegal construct)
    s!"{construct.name} is not supported by the target grammar" span).withHelp construct.advice

@[simp] theorem cause_error (c : Cause) (m : String) (s : Span) : (error c m s).cause = c := rfl

@[simp] theorem cause_withNote (d : Diagnostic) (n : String) : (d.withNote n).cause = d.cause := rfl

@[simp] theorem cause_withHelp (d : Diagnostic) (h : String) : (d.withHelp h).cause = d.cause := rfl

@[simp] theorem span_withNote (d : Diagnostic) (n : String) : (d.withNote n).span = d.span := rfl

@[simp] theorem span_withHelp (d : Diagnostic) (h : String) : (d.withHelp h).span = d.span := rfl

@[simp] theorem cause_unsupported (c : Construct) (s : Span) :
    (unsupported c s).cause = .illegal c := rfl

@[simp] theorem span_unsupported (c : Construct) (s : Span) : (unsupported c s).span = s := rfl

end Diagnostic

/-- Why a stage gives no result. -/
inductive Failure where
  | reports (reports : List Diagnostic)
  /-- The fuel given did not suffice. -/
  | outOfFuel
deriving DecidableEq, Repr, Inhabited

end ScriptLowering
