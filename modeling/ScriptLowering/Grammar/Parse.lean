import ScriptLowering.Grammar.Rules

/-!
# Parsing

Whole token sequences to trees. A parse with any report fails and gives all of them.
-/

namespace ScriptLowering.Grammar

/-- Fuel for a sequence of that many tokens. Between two tokens that are read, fewer than 32
rules call one another. -/
def fuelFor (tokens : List Token) : Nat := 32 * (tokens.length + 2)

/-- Run a rule over a whole sequence. -/
def run {α : Type} (file : Nat) (tokens : List Token) (rule : (fuel : Nat) → Parse α) :
    Except Failure (α × NodeId) :=
  match rule (fuelFor tokens) (State.initial file tokens) with
  | none => .error .outOfFuel
  | some (result, state) =>
    if state.reports.isEmpty then .ok (result, state.nextId) else .error (.reports state.reports)

/-- The parts of a file. -/
def fileParts (fuel : Nat) : Parse (Option Name × List Import × List Decl) := do
  let package ← if ← eat .kwPackage then do
      let bound ← name
      terminator
      pure (some bound)
    else pure none
  let imported ← imports fuel
  return (package, imported, ← topDecls fuel)

/-- Parse a file. -/
def parseFile (file : Nat) (tokens : List Token) : Except Failure SourceFile := do
  let ((package, imported, decls), nextId) ← run file tokens fileParts
  return { package, imports := imported, decls, nextId }

/-- A statement sequence that ends with the input. -/
def wholeStmtList (fuel : Nat) : Parse (List Stmt) := do
  let stmts ← stmtList fuel
  if !(← sees .endOfInput) then want .endOfInput
  return stmts

/-- Parse a statement sequence as found inside a block. Also gives the next free identity. -/
def parseStmts (file : Nat) (tokens : List Token) : Except Failure (List Stmt × NodeId) :=
  run file tokens wholeStmtList

end ScriptLowering.Grammar
