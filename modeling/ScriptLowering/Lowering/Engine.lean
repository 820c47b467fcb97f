import ScriptLowering.Legality
import ScriptLowering.Lowering.Expr
import ScriptLowering.Lowering.Header
import ScriptLowering.Lowering.Return
import ScriptLowering.Tree.Weight

/-!
# Lowering a file

A file is walked from the top. A statement is checked, then the rules are tried; what a rule
makes of it, the statements it put in front included, is visited again from the start, until no
rule applies and the walk goes into the parts of the statement. The first report stops the
whole run.

The walk takes fuel, one unit for each visit, and `SourceFile.lower` supplies an amount computed
from the size of the file.
-/

namespace ScriptLowering.Lowering

/-- Stop with the first report, if there is one. -/
def requireLegal (reports : List Diagnostic) : LowerM Unit :=
  match reports with
  | [] => return ()
  | report :: _ => fail report

/-- What the walk does inside one function. -/
structure Frame where
  env : Env
  /-- How returns are lowered, in a function whose results moved. -/
  plan : Option ReturnPlan

/-- The frame of a function literal, whose results never move. -/
def Frame.literal (frame : Frame) : Frame := { frame with plan := none }

/-- The rules for a member of a sequence that need no walk of their own. The step enters the
statement when none applies. -/
def stepOf (frame : Frame) (declared : List String) (stmt : Stmt) : LowerM Step := do
  if let some stmts ← splitVarDecl frame.env stmt then return .revisit stmts
  if let some replacement ← replaceStmt frame.env declared stmt then
    return .revisit (replacement.before ++ [⟨stmt.id, stmt.span, replacement.form⟩])
  if let some plan := frame.plan then
    if let some step ← lowerReturn frame.env plan stmt then return step
  return .enter stmt []

mutual

/-- Lower a sequence. `declared` holds the names declared in its scope before it. -/
def lowerSeq : (fuel : Nat) → Frame → (declared : List String) → List Stmt →
    LowerM (List Stmt)
  | 0, _, _, _ => throw .outOfFuel
  | _ + 1, _, _, [] => return []
  | fuel + 1, frame, declared, stmt :: rest => do
    requireLegal (stmt.ownViolations.map Violation.report)
    match ← stepAt fuel frame declared stmt with
    | .revisit stmts => lowerSeq fuel frame declared (stmts ++ rest)
    | .enter stmt more => do
      let stmt ← lowerStmt fuel frame stmt
      return stmt :: (← lowerSeq fuel frame (declared ++ declaredNames stmt) (more ++ rest))

/-- The next step at a member of a sequence. -/
def stepAt : (fuel : Nat) → Frame → (declared : List String) → Stmt → LowerM Step
  | 0, _, _, _ => throw .outOfFuel
  | fuel + 1, frame, declared, stmt => do
    if let some block ← hoistInit frame.env stmt then return .revisit [block]
    match stmt.form with
    | .loop init test (some post) body =>
      if frame.env.needsDeclarations post then
        let (decls, post) ← splitPost post.id post.span (← lowerSeq fuel frame [] [post])
        return .revisit (decls ++ [⟨stmt.id, stmt.span, .loop init test (some post) body⟩])
      else stepOf frame declared stmt
    | _ => stepOf frame declared stmt

/-- Lower the parts of a statement. Forms that are never legal are left alone. -/
def lowerStmt : (fuel : Nat) → Frame → Stmt → LowerM Stmt
  | 0, _, _ => throw .outOfFuel
  | fuel + 1, frame, ⟨id, span, form⟩ => do
    let env := frame.env
    let inLiteral : SequenceLowering := lowerSeq fuel frame.literal
    match form with
    | .decl decl => return ⟨id, span, .decl (← lowerGenDecl env inLiteral decl)⟩
    | .expr e => return ⟨id, span, .expr (← lowerExpr env inLiteral e)⟩
    | .incDec e increments => return ⟨id, span, .incDec (← lowerExpr env inLiteral e) increments⟩
    | .assign targets op values =>
      return ⟨id, span, ← lowerAssign env inLiteral targets op values⟩
    | .ret values => return ⟨id, span, .ret (← lowerExprs env inLiteral values)⟩
    | .block block => return ⟨id, span, .block (← lowerBlock fuel frame block)⟩
    | .cond init test body otherwise => do
      let init ← lowerHeader fuel frame init
      let test ← lowerExpr env inLiteral test
      let body ← lowerBlock fuel frame body
      match otherwise with
      | none => return ⟨id, span, .cond init test body none⟩
      | some stmt => do
        let stmt ← wrapElse env stmt
        requireLegal (stmt.ownViolations.map Violation.report)
        return ⟨id, span, .cond init test body (some (← lowerStmt fuel frame stmt))⟩
    | .switch init tag clauses => do
      let init ← lowerHeader fuel frame init
      let tag ← lowerExpr? env inLiteral tag
      return ⟨id, span, .switch init tag (← lowerCases fuel frame clauses)⟩
    | .loop init test post body => do
      let init ← lowerHeader fuel frame init
      let test ← lowerExpr? env inLiteral test
      let post ← lowerHeader fuel frame post
      return ⟨id, span, .loop init test post (← lowerBlock fuel frame body)⟩
    | .range key value defines subject body => do
      let key ← lowerExpr? env inLiteral key
      let value ← lowerExpr? env inLiteral value
      let subject ← lowerExpr env inLiteral subject
      return ⟨id, span, .range key value defines subject (← lowerBlock fuel frame body)⟩
    | .empty | .jump .. | .labeled .. | .go _ | .defer _ | .send .. | .select _
    | .typeSwitch .. => return ⟨id, span, form⟩

/-- Lower a block, which opens a scope of its own. -/
def lowerBlock : (fuel : Nat) → Frame → Block → LowerM Block
  | 0, _, _ => throw .outOfFuel
  | fuel + 1, frame, ⟨stmts, span⟩ => return ⟨← lowerSeq fuel frame [] stmts, span⟩

/-- Lower the arms of a switch in order. -/
def lowerCases : (fuel : Nat) → Frame → List CaseClause → LowerM (List CaseClause)
  | 0, _, _ => throw .outOfFuel
  | _ + 1, _, [] => return []
  | fuel + 1, frame, ⟨exprs, body, span⟩ :: clauses => do
    let exprs ← lowerLabel frame.env (lowerSeq fuel frame.literal) exprs
    let body ← lowerSeq fuel frame [] body
    return ⟨exprs, body, span⟩ :: (← lowerCases fuel frame clauses)

/-- Lower an initializer or post statement in place. What needed declarations was moved out
before; a post statement that reads an element has no place for its temporaries. -/
def lowerHeader : (fuel : Nat) → Frame → Option Stmt → LowerM (Option Stmt)
  | 0, _, _ => throw .outOfFuel
  | _ + 1, _, none => return none
  | fuel + 1, frame, some stmt => do
    requireLegal (stmt.ownViolations.map Violation.report)
    match ← replaceStmt frame.env [] stmt with
    | none => return some (← lowerStmt fuel frame stmt)
    | some ⟨[], form⟩ => return some (← lowerStmt fuel frame ⟨stmt.id, stmt.span, form⟩)
    | some _ => fail (unplacedPost stmt.span)

end

/-- Lower a function: its head, then its body, which starts with the variables that stand in
for named results that moved. -/
def lowerFunc (fuel : Nat) (env : Env) (func : FuncDecl) : LowerM FuncDecl := do
  requireLegal func.headReports
  let head := lowerHead func
  let func := head.func
  match func.body with
  | none => return func
  | some body => do
    let declared := Field.boundNames func.params ++ Field.boundNames func.results
    let locals ← declareAny head.locals body.span
    let stmts ← lowerSeq fuel ⟨env, head.plan⟩ declared (locals ++ body.stmts)
    return { func with body := some ⟨stmts, body.span⟩ }

def lowerDecl (fuel : Nat) (env : Env) : Decl → LowerM Decl
  | .func decl => return .func (← lowerFunc fuel env decl)
  | .gen decl => do
    requireLegal ((violationsOfSpecs decl.specs).map Violation.report)
    return .gen (← lowerGenDecl env (lowerSeq fuel ⟨env, none⟩) decl)

end Lowering

open Lowering

/-- A lowered file, and the warnings collected on the way. -/
structure Lowered where
  file : SourceFile
  warnings : List Diagnostic

/-- Fuel for the lowering of a file. A return may store every named result, so the number of
visits is bounded by a product of two sizes. -/
def SourceFile.loweringFuel (file : SourceFile) : Nat :=
  64 * ((file.weight + 4) * (file.weight + 4))

/-- Lower a file with the given fuel. -/
def SourceFile.lowerWith (file : SourceFile) (fuel : Nat) (resolver : Resolver)
    (options : Options) : Except Halt Lowered := do
  let env : Env := { resolver, options, shapes := shapesOf file }
  let (decls, state) ← (file.decls.mapM (lowerDecl fuel env)).run { nextId := file.nextId }
  return { file := { file with decls, nextId := state.nextId }, warnings := state.warnings }

/-- Lower a file to the target grammar, or say what stopped it. -/
def SourceFile.lower (file : SourceFile) (resolver : Resolver) (options : Options) :
    Except Halt Lowered :=
  file.lowerWith file.loweringFuel resolver options

end ScriptLowering
