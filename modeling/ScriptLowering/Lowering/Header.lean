import ScriptLowering.Lowering.Rules

/-!
# Statements moved out of headers

A rule can put declarations in front of a statement only where the statement is a member of a
sequence. The initializers of `if`, `switch` and `for`, an `else if`, and the values of a
variable declaration are brought into one first.
-/

namespace ScriptLowering.Lowering

/-- A block of its own for a header statement that carried an initializer. -/
def blockOf (stmts : List Stmt) (span : Span) : LowerM Stmt :=
  newStmt (.block ⟨stmts, span⟩) span

/-- `if a, b := f(); b {}` becomes `{ a, b := f(); if b {} }` when the initializer will need
declarations, and likewise for `switch` and `for`. An `if` or `switch` whose header reads an
element is moved too, since that read comes after the initializer. -/
def hoistInit (env : Env) (stmt : Stmt) : LowerM (Option Stmt) := do
  match stmt.form with
  | .cond (some init) test body otherwise =>
    if env.readsElement stmt.span test || env.needsSplice init then
      blockOf [init, ⟨stmt.id, stmt.span, .cond none test body otherwise⟩] stmt.span
    else return none
  | .switch (some init) tag clauses =>
    if tag.any (env.readsElement stmt.span) || env.needsSplice init then
      blockOf [init, ⟨stmt.id, stmt.span, .switch none tag clauses⟩] stmt.span
    else return none
  | .loop (some init) test post body =>
    if env.needsSplice init then
      blockOf [init, ⟨stmt.id, stmt.span, .loop none test post body⟩] stmt.span
    else return none
  | _ => return none

/-- `else if a, b := f(); b {}` becomes `else { if a, b := f(); b {} }` when the inner statement
has to be a member of a sequence. -/
def wrapElse (env : Env) (stmt : Stmt) : LowerM Stmt := do
  match stmt.form with
  | .cond init test _ _ =>
    if init.any env.needsSplice || env.readsElement stmt.span test then
      blockOf [stmt] stmt.span
    else return stmt
  | _ => return stmt

/-- The variables of a declaration that binds `value`, without the blank ones. -/
def splitVars (env : Env) (names : List Name) (type : Option (Located TypeExpr)) (value : Expr)
    (place : Span) : LowerM (List Var) :=
  (names.zipIdx.filter fun (name, _) => name.val != "_").mapM fun (name, position) => do
    match type with
    | some type => return (name.val, type.val)
    | none =>
      let answer :=
        if 1 < names.length then env.resolver.resultType value position place
        else env.resolver.typeOf value place
      return (name.val, ← requireType answer s!"'{name.val}'" name.span)

/-- `var a, b = f()` becomes `var (a A; b B)` followed by `a, b = f()`. A single variable that
is initialized with an element is split the same way. -/
def splitVarDecl (env : Env) (stmt : Stmt) : LowerM (Option (List Stmt)) := do
  match stmt.form with
  | .decl ⟨.var, [.value names type [value]], _⟩ =>
    if names.length ≤ 1 && !env.isElement stmt.span value then return none
    let vars ← splitVars env names type value stmt.span
    let form := if vars.isEmpty then .empty else StmtForm.decl (varDecl vars stmt.span)
    let targets := names.map fun name => Expr.ident name.span name.val
    let assignment ← newStmt (.assign targets .assign [value]) stmt.span
    return some [⟨stmt.id, stmt.span, form⟩, assignment]
  | _ => return none

/-- The report of a loop post statement that needs more than declarations in front of the
loop. -/
def unplacedPost (span : Span) : Diagnostic :=
  (Diagnostic.unsupported .mapSubscript span).withNote
    "a loop post statement runs on every iteration"

/-- The statement is a declaration. -/
def isDeclaration (stmt : Stmt) : Bool :=
  match stmt.form with
  | .decl _ => true
  | _ => false

/-- What a lowered post statement became: the statement with the identity `id`, and the
declarations beside it. Nothing else may stand beside it, since it would run once instead of on
every iteration. -/
def splitPost (id : NodeId) (span : Span) (stmts : List Stmt) : LowerM (List Stmt × Stmt) :=
  match stmts.partition fun stmt => stmt.id == id with
  | ([post], others) =>
    if others.all isDeclaration then return (others, post) else fail (unplacedPost span)
  | _ => fail (unplacedPost span)

end ScriptLowering.Lowering
