import ScriptLowering.Grammar.Fault
import ScriptLowering.Tree.Basic

/-!
# Reading tokens

The state a parse runs in, and its elementary steps. The current token is always there: the
sequence ends with an end-of-input token, and advancing stops at it. A step never fails;
what is wrong is recorded and reading goes on, so that one run reports as much as it can.
-/

namespace ScriptLowering.Grammar

/-- Blocks, expressions and types may nest this deep. -/
def nestingLimit : Nat := 256

/-- Where a parse stands. -/
structure State where
  /-- The place of the token read last. -/
  before : Option Span
  current : Token
  ahead : List Token
  /-- Nesting level. -/
  depth : Nat
  /-- Inside the header of a statement with a body, where a brace after a name opens that
  body and not a composite literal. -/
  inHeader : Bool
  nextId : NodeId
  reports : List Diagnostic

/-- A parse step. It gives nothing only when it runs out of fuel. -/
abbrev Parse := StateT State Option

/-- The answer of a grammar rule whose fuel is used up. -/
def outOfFuel {α : Type} : Parse α := fun _ => none

/-- The kind of the current token. -/
def peek : Parse Token.Kind := return (← get).current.kind

/-- The kind of the token after the current one. -/
def peekNext : Parse Token.Kind :=
  return match (← get).ahead with
    | [] => .endOfInput
    | next :: _ => next.kind

def currentSpan : Parse Span := return (← get).current.span

/-- The place of the token read last, or of the first one when none was read. -/
def previousSpan : Parse Span := do
  let s ← get
  return s.before.getD s.current.span

/-- The number of tokens still ahead; it falls whenever one is read. -/
def remaining : Parse Nat := return (← get).ahead.length

/-- Step to the next token, unless the current one is the last. -/
def State.advanced (s : State) : State :=
  match s.ahead with
  | [] => s
  | next :: rest => { s with before := some s.current.span, current := next, ahead := rest }

/-- Read the current token. -/
def advance : Parse Token := modifyGet fun s => (s.current, s.advanced)

def sees (kind : Token.Kind) : Parse Bool := return (← peek) == kind

/-- Read the current token if it is of this kind. -/
def eat (kind : Token.Kind) : Parse Bool := do
  if ← sees kind then
    let _ ← advance
    return true
  else return false

def addReport (report : Diagnostic) : Parse Unit :=
  modify fun s => { s with reports := s.reports ++ [report] }

/-- Record that something else was wanted in place of the current token. -/
def want (wanted : Wanted) : Parse Unit := do
  addReport (wanted.report (← get).current)

/-- Record a misuse at `span`. -/
def refuse (misuse : Misuse) (span : Span) : Parse Unit :=
  addReport (misuse.report span)

/-- Read a token of this kind, or record that it is missing. Gives the place of the current
token either way. -/
def expect (kind : Token.Kind) : Parse Span := do
  let span ← currentSpan
  if ← sees kind then
    let _ ← advance
  else want (.token kind)
  return span

/-- The tokens at which skipping a faulty statement stops. -/
def endsSkip : Token.Kind → Bool
  | .semicolon | .rightBrace | .endOfInput => true
  | _ => false

/-- Move on to the end of the current statement. -/
def State.skipped (s : State) : State :=
  go s.before s.current s.ahead
where
  go (before : Option Span) (current : Token) : List Token → State
    | [] => { s with before, current, ahead := [] }
    | next :: rest =>
      if endsSkip current.kind then { s with before, current, ahead := next :: rest }
      else go (some current.span) next rest

/-- Skip to the end of the current statement, and past its terminator. -/
def skipStatement : Parse Unit := do
  modify State.skipped
  let _ ← eat .semicolon

/-- Read a terminator. A closing bracket or the end of the input ends a statement too. -/
def terminator : Parse Unit := do
  match ← peek with
  | .semicolon =>
    let _ ← advance
  | .rightParen | .rightBrace | .endOfInput => return ()
  | _ =>
    want .terminator
    skipStatement

/-- Read a name, or record that it is missing and go on with the blank one. -/
def name : Parse Name := do
  if ← sees .ident then
    let token ← advance
    return ⟨token.text, token.span⟩
  else
    want .identifier
    return ⟨"_", ← currentSpan⟩

/-- A statement with a fresh identity. -/
def newStmt (form : StmtForm) (span : Span) : Parse Stmt :=
  modifyGet fun s => (⟨s.nextId, span, form⟩, { s with nextId := s.nextId + 1 })

/-- Run `body` one level deeper, or `otherwise` in its place when that is too deep. -/
def nested {α : Type} (otherwise body : Parse α) : Parse α := do
  modify fun s => { s with depth := s.depth + 1 }
  if nestingLimit < (← get).depth then
    refuse .tooDeep (← currentSpan)
    modify fun s => { s with depth := s.depth - 1 }
    otherwise
  else
    let result ← body
    modify fun s => { s with depth := s.depth - 1 }
    return result

/-- Run `body` inside (or outside) a statement header. -/
def withHeader {α : Type} (inHeader : Bool) (body : Parse α) : Parse α := do
  let saved := (← get).inHeader
  modify fun s => { s with inHeader }
  let result ← body
  modify fun s => { s with inHeader := saved }
  return result

/-- Drop a line break that was read as a terminator. -/
def eatNewline : Parse Unit := do
  let token := (← get).current
  if token.kind == .semicolon && token.text == "\n" then
    let _ ← advance

/-- A token that takes no room, at offset `pos`. -/
def tokenAfter (kind : Token.Kind) (text : String) (file pos : Nat) : Token :=
  { kind, text, span := .point file pos }

/-- Make the line breaks that end a statement tokens of their own. `last` is the kind of the
token before and the offset where it ends. -/
def withTerminators (file : Nat) (last : Option (Token.Kind × Nat)) : List Token → List Token
  | [] =>
    let (kind, pos) := last.getD (.endOfInput, 0)
    let finish := [tokenAfter .endOfInput "" file pos]
    if kind.endsStatement then tokenAfter .semicolon "\n" file pos :: finish else finish
  | token :: tokens =>
    let rest := token :: withTerminators file (some (token.kind, token.span.stop)) tokens
    match last with
    | some (kind, pos) =>
      if token.afterNewline && kind.endsStatement then tokenAfter .semicolon "\n" file pos :: rest
      else rest
    | none => rest

/-- The state at the beginning of a token sequence. -/
def State.initial (file : Nat) (tokens : List Token) : State :=
  let start (current : Token) (ahead : List Token) : State :=
    { before := none, current, ahead, depth := 0, inHeader := false, nextId := 0, reports := [] }
  match withTerminators file none tokens with
  | [] => start (tokenAfter .endOfInput "" file 0) []
  | current :: ahead => start current ahead

end ScriptLowering.Grammar
