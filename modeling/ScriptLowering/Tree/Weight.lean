import ScriptLowering.Tree.Basic

/-!
# Weight

The number of expressions and statements of a tree, from which bounds on the work over it are
computed. Written types count for nothing: no pass enters them.
-/

namespace ScriptLowering

mutual

def Expr.weight : Expr → Nat
  | .ident .. | .lit .. | .type .. => 1
  | .composite _ _ elems => 1 + weightOfExprs elems
  | .keyValue _ key value => 1 + key.weight + value.weight
  | .funcLit _ _ _ ⟨stmts, _⟩ => 1 + weightOfStmts stmts
  | .paren _ inner => 1 + inner.weight
  | .selector _ base _ | .typeAssert _ base _ => 1 + base.weight
  | .index _ base key => 1 + base.weight + key.weight
  | .slice _ base low high max =>
    1 + base.weight + weightOfExpr? low + weightOfExpr? high + weightOfExpr? max
  | .call _ callee args _ => 1 + callee.weight + weightOfExprs args
  | .unary _ _ operand => 1 + operand.weight
  | .binary _ _ left right => 1 + left.weight + right.weight

def weightOfExpr? : Option Expr → Nat
  | none => 0
  | some e => e.weight

def weightOfExprs : List Expr → Nat
  | [] => 0
  | e :: es => e.weight + weightOfExprs es

def Stmt.weight : Stmt → Nat
  | ⟨_, _, .decl ⟨_, specs, _⟩⟩ => 1 + weightOfSpecs specs
  | ⟨_, _, .empty⟩ | ⟨_, _, .jump ..⟩ => 1
  | ⟨_, _, .labeled _ stmt⟩ => 1 + stmt.weight
  | ⟨_, _, .expr e⟩ | ⟨_, _, .incDec e _⟩ | ⟨_, _, .go e⟩ | ⟨_, _, .defer e⟩ => 1 + e.weight
  | ⟨_, _, .send chan value⟩ => 1 + chan.weight + value.weight
  | ⟨_, _, .assign targets _ values⟩ => 1 + weightOfExprs targets + weightOfExprs values
  | ⟨_, _, .ret values⟩ => 1 + weightOfExprs values
  | ⟨_, _, .block ⟨stmts, _⟩⟩ => 1 + weightOfStmts stmts
  | ⟨_, _, .cond init test ⟨stmts, _⟩ otherwise⟩ =>
    1 + weightOfStmt? init + test.weight + weightOfStmts stmts + weightOfStmt? otherwise
  | ⟨_, _, .switch init tag clauses⟩ =>
    1 + weightOfStmt? init + weightOfExpr? tag + weightOfCases clauses
  | ⟨_, _, .typeSwitch init guard clauses⟩ =>
    1 + weightOfStmt? init + guard.weight + weightOfCases clauses
  | ⟨_, _, .select clauses⟩ => 1 + weightOfComms clauses
  | ⟨_, _, .loop init test post ⟨stmts, _⟩⟩ =>
    1 + weightOfStmt? init + weightOfExpr? test + weightOfStmt? post + weightOfStmts stmts
  | ⟨_, _, .range key value _ subject ⟨stmts, _⟩⟩ =>
    1 + weightOfExpr? key + weightOfExpr? value + subject.weight + weightOfStmts stmts

def weightOfStmt? : Option Stmt → Nat
  | none => 0
  | some stmt => stmt.weight

def weightOfStmts : List Stmt → Nat
  | [] => 0
  | stmt :: stmts => stmt.weight + weightOfStmts stmts

def weightOfCases : List CaseClause → Nat
  | [] => 0
  | ⟨none, body, _⟩ :: clauses => 1 + weightOfStmts body + weightOfCases clauses
  | ⟨some exprs, body, _⟩ :: clauses =>
    1 + weightOfExprs exprs + weightOfStmts body + weightOfCases clauses

def weightOfComms : List CommClause → Nat
  | [] => 0
  | ⟨comm, body, _⟩ :: clauses =>
    1 + weightOfStmt? comm + weightOfStmts body + weightOfComms clauses

def weightOfSpecs : List Spec → Nat
  | [] => 0
  | .value names _ values :: specs =>
    1 + names.length + weightOfExprs values + weightOfSpecs specs
  | .typeName .. :: specs => 1 + weightOfSpecs specs

end

def Decl.weight : Decl → Nat
  | .func decl =>
    Field.totalArity decl.results + (decl.body.map fun body => weightOfStmts body.stmts).getD 0
  | .gen decl => weightOfSpecs decl.specs

def SourceFile.weight (file : SourceFile) : Nat :=
  file.decls.foldr (fun decl n => decl.weight + n) 0

end ScriptLowering
