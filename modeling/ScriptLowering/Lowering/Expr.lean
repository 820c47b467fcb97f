import ScriptLowering.Lowering.Context

/-!
# Expressions

What is lowered inside an expression: `a &^ b` becomes `a & (^(b))`, and the bodies of function
literals are lowered as sequences of their own. Element reads have been moved out before; one
that is left stands where no temporary can be put (a loop condition, a case expression, a
package-level initializer, a parallel assignment) and is a failure.
-/

namespace ScriptLowering.Lowering

/-- `(^(operand))`, all of it at `span`. -/
def complement (span : Span) (operand : Expr) : Expr :=
  .paren span (.unary span .complement (.paren span operand))

/-- A binary expression with and-not spelled by its complement. -/
def lowerBinary (span : Span) (op : BinaryOp) (left right : Expr) : Expr :=
  if op = .andNot then .binary span .bitAnd left (complement right.span right)
  else .binary span op left right

/-- How a statement sequence is lowered, given the names declared around it. -/
abbrev SequenceLowering := List String → List Stmt → LowerM (List Stmt)

mutual

/-- Lower an expression; `lowerSeq` is applied to the bodies of its function literals. -/
def lowerExpr (env : Env) (lowerSeq : SequenceLowering) : Expr → LowerM Expr
  | .ident span name => return .ident span name
  | .lit span value => return .lit span value
  | .type span type => return .type span type
  | .composite span type elems =>
    return .composite span type (← lowerExprs env lowerSeq elems)
  | .keyValue span key value => do
    let key ← lowerExpr env lowerSeq key
    return .keyValue span key (← lowerExpr env lowerSeq value)
  | .funcLit span params results ⟨stmts, place⟩ => do
    let names := Field.boundNames params ++ Field.boundNames results
    return .funcLit span params results ⟨← lowerSeq names stmts, place⟩
  | .paren span inner => return .paren span (← lowerExpr env lowerSeq inner)
  | .selector span base member =>
    return .selector span (← lowerExpr env lowerSeq base) member
  | .index span base key => do
    if env.resolver.isContainerRead span (.index span base key) then
      fail (.unsupported .mapSubscript span)
    let base ← lowerExpr env lowerSeq base
    return .index span base (← lowerExpr env lowerSeq key)
  | .slice span base low high max => do
    let base ← lowerExpr env lowerSeq base
    let low ← lowerExpr? env lowerSeq low
    let high ← lowerExpr? env lowerSeq high
    return .slice span base low high (← lowerExpr? env lowerSeq max)
  | .typeAssert span base type =>
    return .typeAssert span (← lowerExpr env lowerSeq base) type
  | .call span callee args spread => do
    let callee ← lowerExpr env lowerSeq callee
    return .call span callee (← lowerExprs env lowerSeq args) spread
  | .unary span op operand => return .unary span op (← lowerExpr env lowerSeq operand)
  | .binary span op left right => do
    let left ← lowerExpr env lowerSeq left
    return lowerBinary span op left (← lowerExpr env lowerSeq right)

def lowerExpr? (env : Env) (lowerSeq : SequenceLowering) : Option Expr → LowerM (Option Expr)
  | none => return none
  | some e => return some (← lowerExpr env lowerSeq e)

def lowerExprs (env : Env) (lowerSeq : SequenceLowering) : List Expr → LowerM (List Expr)
  | [] => return []
  | e :: es => do
    let e ← lowerExpr env lowerSeq e
    return e :: (← lowerExprs env lowerSeq es)

end

/-- Lower the expressions of a case label; the default one has none. -/
def lowerLabel (env : Env) (lowerSeq : SequenceLowering) :
    Option (List Expr) → LowerM (Option (List Expr))
  | none => return none
  | some es => return some (← lowerExprs env lowerSeq es)

def lowerSpecs (env : Env) (lowerSeq : SequenceLowering) : List Spec → LowerM (List Spec)
  | [] => return []
  | .value names type values :: specs => do
    let values ← lowerExprs env lowerSeq values
    return .value names type values :: (← lowerSpecs env lowerSeq specs)
  | .typeName name isAlias type :: specs =>
    return .typeName name isAlias type :: (← lowerSpecs env lowerSeq specs)

/-- Lower the initial values of a declaration. -/
def lowerGenDecl (env : Env) (lowerSeq : SequenceLowering) (decl : GenDecl) : LowerM GenDecl :=
  return { decl with specs := ← lowerSpecs env lowerSeq decl.specs }

/-- Lower an assignment. `a &^= b` becomes `a &= (^(b))`. -/
def lowerAssign (env : Env) (lowerSeq : SequenceLowering) (targets : List Expr) (op : AssignOp)
    (values : List Expr) : LowerM StmtForm := do
  let targets ← lowerExprs env lowerSeq targets
  let values ← lowerExprs env lowerSeq values
  if op = .andNot then
    return .assign targets .bitAnd (values.map fun value => complement value.span value)
  else return .assign targets op values

end ScriptLowering.Lowering
