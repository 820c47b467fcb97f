import ScriptLowering.Diagnostic
import ScriptLowering.Tree.Basic

/-!
# Legality

What the target grammar cannot express. A tree has a list of violations, in the order a
reader meets them; it is legal when the list is empty, and the first one is what a check
reports. The lowering looks at the violations of each statement it visits, and
`SourceFile.check` at those of a whole file.
-/

namespace ScriptLowering

/-- A forbidden construct and where it stands. -/
structure Violation where
  construct : Construct
  span : Span
deriving DecidableEq, Repr, Inhabited

def Violation.report (v : Violation) : Diagnostic := .unsupported v.construct v.span

mutual

/-- The violations in an expression, bodies of function literals included. A forbidden
construct stands for all that is inside it. -/
def Expr.violations : Expr → List Violation
  | .ident .. | .type .. => []
  | .lit span (.imaginary _) => [⟨.imaginaryLiteral, span⟩]
  | .lit .. => []
  | .typeAssert span .. => [⟨.typeAssertion, span⟩]
  | .slice span .. => [⟨.sliceExpression, span⟩]
  | .unary span .receive _ => [⟨.channelReceive, span⟩]
  | .unary _ _ operand => operand.violations
  | .composite _ _ elems => violationsOfExprs elems
  | .keyValue _ key value => key.violations ++ value.violations
  | .funcLit _ _ _ ⟨stmts, _⟩ => violationsOfStmts stmts
  | .paren _ inner => inner.violations
  | .selector _ base _ => base.violations
  | .index _ base key => base.violations ++ key.violations
  | .call _ callee args _ => callee.violations ++ violationsOfExprs args
  | .binary _ _ left right => left.violations ++ right.violations

def violationsOfExpr? : Option Expr → List Violation
  | none => []
  | some e => e.violations

def violationsOfExprs : List Expr → List Violation
  | [] => []
  | e :: es => e.violations ++ violationsOfExprs es

/-- The violations in a statement and all statements in it: first those of its own form and
expressions, then those of the statements it holds. -/
def Stmt.violations : Stmt → List Violation
  | ⟨_, span, .jump .goTo _⟩ => [⟨.labeledJump, span⟩]
  | ⟨_, span, .jump .fallthrough _⟩ => [⟨.fallthrough, span⟩]
  | ⟨_, _, .labeled label _⟩ => [⟨.labeledStatement, label.span⟩]
  | ⟨_, span, .defer _⟩ => [⟨.deferredCall, span⟩]
  | ⟨_, span, .go _⟩ => [⟨.concurrentLaunch, span⟩]
  | ⟨_, span, .send ..⟩ => [⟨.channelSend, span⟩]
  | ⟨_, span, .select _⟩ => [⟨.select, span⟩]
  | ⟨_, span, .typeSwitch ..⟩ => [⟨.typeSwitch, span⟩]
  | ⟨_, _, .jump ..⟩ | ⟨_, _, .empty⟩ => []
  | ⟨_, _, .decl ⟨_, specs, _⟩⟩ => violationsOfSpecs specs
  | ⟨_, _, .expr e⟩ | ⟨_, _, .incDec e _⟩ => e.violations
  | ⟨_, _, .assign targets _ values⟩ => violationsOfExprs targets ++ violationsOfExprs values
  | ⟨_, _, .ret values⟩ => violationsOfExprs values
  | ⟨_, _, .block ⟨stmts, _⟩⟩ => violationsOfStmts stmts
  | ⟨_, _, .cond init test ⟨stmts, _⟩ otherwise⟩ =>
    test.violations ++ violationsOfStmt? init ++ violationsOfStmts stmts ++
      violationsOfStmt? otherwise
  | ⟨_, _, .switch init tag clauses⟩ =>
    violationsOfExpr? tag ++ violationsOfLabels clauses ++ violationsOfStmt? init ++
      violationsOfArms clauses
  | ⟨_, _, .loop init test post ⟨stmts, _⟩⟩ =>
    violationsOfExpr? test ++ violationsOfStmt? init ++ violationsOfStmt? post ++
      violationsOfStmts stmts
  | ⟨_, _, .range key value _ subject ⟨stmts, _⟩⟩ =>
    violationsOfExpr? key ++ violationsOfExpr? value ++ subject.violations ++
      violationsOfStmts stmts

def violationsOfStmt? : Option Stmt → List Violation
  | none => []
  | some stmt => stmt.violations

def violationsOfStmts : List Stmt → List Violation
  | [] => []
  | stmt :: stmts => stmt.violations ++ violationsOfStmts stmts

/-- The violations in the expressions of case labels. -/
def violationsOfLabels : List CaseClause → List Violation
  | [] => []
  | ⟨none, _, _⟩ :: clauses => violationsOfLabels clauses
  | ⟨some exprs, _, _⟩ :: clauses => violationsOfExprs exprs ++ violationsOfLabels clauses

/-- The violations in the bodies of case arms. -/
def violationsOfArms : List CaseClause → List Violation
  | [] => []
  | ⟨_, body, _⟩ :: clauses => violationsOfStmts body ++ violationsOfArms clauses

def violationsOfSpecs : List Spec → List Violation
  | [] => []
  | .value _ _ values :: specs => violationsOfExprs values ++ violationsOfSpecs specs
  | .typeName .. :: specs => violationsOfSpecs specs

end

/-- The violations of a statement's own form and of the expressions it holds itself. Those of
statements inside it are left to a later visit. -/
def Stmt.ownViolations (stmt : Stmt) : List Violation :=
  match stmt.form with
  | .block _ => []
  | .cond _ test _ _ => test.violations
  | .switch _ tag clauses => violationsOfExpr? tag ++ violationsOfLabels clauses
  | .loop _ test _ _ => violationsOfExpr? test
  | .range key value _ subject _ =>
    violationsOfExpr? key ++ violationsOfExpr? value ++ subject.violations
  | .decl _ | .empty | .labeled .. | .expr _ | .send .. | .incDec .. | .assign .. | .go _
  | .defer _ | .ret _ | .jump .. | .typeSwitch .. | .select _ => stmt.violations

/-- The place of a receiver list: its names, or the name of the function when it has none. -/
def FuncDecl.receiverSpan (func : FuncDecl) (receiver : List Field) : Span :=
  match receiver.flatMap fun field => field.names.map (·.span) with
  | [] => func.name.span
  | span :: spans => spans.foldl Span.join span

/-- What is wrong with the head of a function: more than one receiver, or a result that is a
pointer. -/
def FuncDecl.headReports (func : FuncDecl) : List Diagnostic :=
  let receivers := match func.receiver with
    | some receiver =>
      if 1 < Field.totalArity receiver then
        [Diagnostic.error .multipleReceivers
          s!"function '{func.name.val}' declares more than one receiver"
          (func.receiverSpan receiver)]
      else []
    | none => []
  let pointers := match func.results.find? fun field => field.type.val.isPointer with
    | some field =>
      [((Diagnostic.error .pointerResult s!"function '{func.name.val}' returns a pointer"
        field.type.span).withNote "the target grammar has no return-by-pointer convention").withHelp
        "return the value through an output parameter instead"]
    | none => []
  receivers ++ pointers

/-- All that is wrong with a declaration. -/
def Decl.reports : Decl → List Diagnostic
  | .func decl =>
    decl.headReports ++
      ((decl.body.map fun body => (violationsOfStmts body.stmts).map Violation.report).getD [])
  | .gen decl => (violationsOfSpecs decl.specs).map Violation.report

/-- Fail with the first of the reports, if there is one. -/
def Diagnostic.raiseFirst : List Diagnostic → Except Diagnostic Unit
  | [] => .ok ()
  | report :: _ => .error report

/-- Accept a file the target grammar can express after lowering; otherwise the first report. -/
def SourceFile.check (file : SourceFile) : Except Diagnostic Unit :=
  Diagnostic.raiseFirst (file.decls.flatMap Decl.reports)

theorem Diagnostic.raiseFirst_eq_ok {reports : List Diagnostic} :
    Diagnostic.raiseFirst reports = .ok () ↔ reports = [] := by
  cases reports <;> simp [raiseFirst]

/-- A file is accepted exactly when nothing is wrong with any of its declarations. -/
theorem SourceFile.check_eq_ok {file : SourceFile} :
    file.check = .ok () ↔ ∀ decl ∈ file.decls, decl.reports = [] := by
  simp [check, Diagnostic.raiseFirst_eq_ok]

end ScriptLowering
