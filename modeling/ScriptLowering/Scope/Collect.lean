import ScriptLowering.Scope.Table

/-!
# Building a scope table

A table is built in three passes over a file: functions, methods and types; package-level
variables; then the bodies, statement by statement. The type of a name that is defined by a
value is inferred from what was recorded before it.
-/

namespace ScriptLowering

namespace Table

/-- Record a binding. The blank name binds nothing. -/
def bind (table : Table) (name : String) (type : TypeExpr) (scope : Span) (visibleFrom : Nat) :
    Table :=
  if name == "_" then table
  else { table with bindings := table.bindings ++ [⟨name, type, scope, visibleFrom⟩] }

def bindAll (table : Table) (vars : List (String × TypeExpr)) (scope : Span)
    (visibleFrom : Nat) : Table :=
  vars.foldl (fun table (name, type) => table.bind name type scope visibleFrom) table

/-- The type a parameter has inside the function: a variadic one is a slice. -/
def parameterType : TypeExpr → TypeExpr
  | .variadic elem => .array none elem
  | type => type

/-- Record the names of a field list. -/
def bindFields (table : Table) (fields : List Field) (scope : Span) (visibleFrom : Nat) : Table :=
  let vars := fields.flatMap fun field =>
    field.names.map fun name => (name.val, parameterType field.type.val)
  table.bindAll vars scope visibleFrom

/-- The types of names defined by values: one value for each name, or one value that has them
all. Names whose type is unknown are left out. -/
def definedTypes (table : Table) (names : List String) (values : List Expr) (place : Span) :
    List (String × TypeExpr) :=
  if names.length = values.length then
    (names.zip values).filterMap fun (name, value) =>
      (table.valueType place value 0).map fun type => (name, type)
  else match values with
    | [value] =>
      names.zipIdx.filterMap fun (name, index) =>
        (table.valueType place value index).map fun type => (name, type)
    | _ => []

/-- The types of the names of a value specification. -/
def specTypes (table : Table) (names : List Name) (type : Option (Located TypeExpr))
    (values : List Expr) (place : Span) : List (String × TypeExpr) :=
  match type with
  | some type => names.map fun name => (name.val, type.val)
  | none => table.definedTypes (names.map (·.val)) values place

/-- The types of the key and the value of a range over `subject`. -/
def rangeTypes (table : Table) (subject : Expr) (place : Span) :
    Option TypeExpr × Option TypeExpr :=
  match (table.valueType place subject 0).map table.underlying with
  | some (.map key elem) => (some key, some elem)
  | some (.array _ elem) => (some (.named "int"), some elem)
  | some (.chan _ elem) => (some elem, none)
  | some (.named name) =>
    if name == "string" then (some (.named "int"), some (.named "rune")) else (none, none)
  | _ => (none, none)

/-- Record a range variable, when it is a name of known type. -/
def bindRangeVar (table : Table) (target : Option Expr) (type : Option TypeExpr) (scope : Span) :
    Table :=
  match target.bind Expr.name?, type with
  | some name, some type => table.bind name type scope scope.start
  | _, _ => table

end Table

mutual

/-- Record what the function literals in an expression bind. -/
def Expr.collect : Expr → Table → Table
  | .funcLit _ params results ⟨stmts, span⟩, table =>
    let table := table.bindFields params span span.start
    let table := table.bindFields results span span.start
    collectStmts span stmts table
  | .call _ callee args _, table => collectExprs args (callee.collect table)
  | .paren _ inner, table => inner.collect table
  | .binary _ _ left right, table => right.collect (left.collect table)
  | .unary _ _ operand, table => operand.collect table
  | .composite _ _ elems, table => collectExprs elems table
  | .keyValue _ _ value, table => value.collect table
  | _, table => table

def collectExprs : List Expr → Table → Table
  | [], table => table
  | e :: es, table => collectExprs es (e.collect table)

/-- Record what a statement binds in the scope around it, and what the statements in it bind
in theirs. -/
def Stmt.collect (scope : Span) : Stmt → Table → Table
  | ⟨_, span, .decl ⟨_, specs, _⟩⟩, table => collectSpecs scope span specs table
  | ⟨_, span, .assign targets op values⟩, table =>
    let table := collectExprs values table
    if op == .define then
      table.bindAll (table.definedTypes (targets.filterMap Expr.name?) values span) scope
        span.start
    else table
  | ⟨_, _, .labeled _ stmt⟩, table => stmt.collect scope table
  | ⟨_, _, .expr e⟩, table | ⟨_, _, .go e⟩, table | ⟨_, _, .defer e⟩, table => e.collect table
  | ⟨_, _, .ret values⟩, table => collectExprs values table
  | ⟨_, _, .block ⟨stmts, span⟩⟩, table => collectStmts span stmts table
  | ⟨_, span, .cond init _ ⟨stmts, inner⟩ otherwise⟩, table =>
    let table := collectStmt? span init table
    collectStmt? span otherwise (collectStmts inner stmts table)
  | ⟨_, span, .switch init _ clauses⟩, table
  | ⟨_, span, .typeSwitch init _ clauses⟩, table =>
    collectCases clauses (collectStmt? span init table)
  | ⟨_, _, .select clauses⟩, table => collectComms clauses table
  | ⟨_, span, .loop init _ _ ⟨stmts, inner⟩⟩, table =>
    collectStmts inner stmts (collectStmt? span init table)
  | ⟨_, span, .range key value defines subject ⟨stmts, inner⟩⟩, table =>
    let table :=
      if defines then
        let (keyType, valueType) := table.rangeTypes subject span
        (table.bindRangeVar key keyType span).bindRangeVar value valueType span
      else table
    collectStmts inner stmts table
  | ⟨_, _, .send ..⟩, table | ⟨_, _, .incDec ..⟩, table | ⟨_, _, .jump ..⟩, table
  | ⟨_, _, .empty⟩, table => table

def collectStmt? (scope : Span) : Option Stmt → Table → Table
  | none, table => table
  | some stmt, table => stmt.collect scope table

def collectStmts (scope : Span) : List Stmt → Table → Table
  | [], table => table
  | stmt :: stmts, table => collectStmts scope stmts (stmt.collect scope table)

def collectCases : List CaseClause → Table → Table
  | [], table => table
  | ⟨_, body, span⟩ :: clauses, table => collectCases clauses (collectStmts span body table)

def collectComms : List CommClause → Table → Table
  | [], table => table
  | ⟨comm, body, span⟩ :: clauses, table =>
    collectComms clauses (collectStmts span body (collectStmt? span comm table))

/-- Record a local declaration that stands at `place`. A local type is known everywhere after
it. -/
def collectSpecs (scope place : Span) : List Spec → Table → Table
  | [], table => table
  | .value names type values :: specs, table =>
    let table := collectExprs values table
    collectSpecs scope place specs
      (table.bindAll (table.specTypes names type values place) scope place.start)
  | .typeName name _ type :: specs, table =>
    collectSpecs scope place specs { table with types := (name.val, type.val) :: table.types }

end

/-- The base type of a receiver, also behind a pointer. -/
def FuncDecl.receiverType? (receiver : List Field) : Option String :=
  match receiver with
  | ⟨_, ⟨.named name, _⟩⟩ :: _ => some name
  | ⟨_, ⟨.pointer (.named name), _⟩⟩ :: _ => some name
  | _ => none

namespace Table

/-- Record the signature of a function or the types a declaration names. -/
def declare (table : Table) : Decl → Table
  | .func decl =>
    let results := Field.flatTypes decl.results
    match decl.receiver with
    | none => { table with functions := (decl.name.val, results) :: table.functions }
    | some receiver =>
      match FuncDecl.receiverType? receiver with
      | some base =>
        { table with methods := ((base, decl.name.val), results) :: table.methods }
      | none => table
  | .gen decl =>
    decl.specs.foldl (fun table spec =>
      match spec with
      | .typeName name _ type => { table with types := (name.val, type.val) :: table.types }
      | .value .. => table) table

/-- Record the package-level variables of a declaration. -/
def declareGlobals (table : Table) : Decl → Table
  | .func _ => table
  | .gen decl =>
    decl.specs.foldl (fun table spec =>
      match spec with
      | .value names type values =>
        (table.specTypes names type values decl.span).foldl
          (fun table var => { table with globals := var :: table.globals }) table
      | .typeName .. => table) table

/-- Record the parameters and the body of a function. -/
def collectFunction (table : Table) (func : FuncDecl) : Table :=
  let scope := func.span
  let table := table.bindFields (func.receiver.getD []) scope scope.start
  let table := table.bindFields func.params scope scope.start
  let table := table.bindFields func.results scope scope.start
  match func.body with
  | some body => collectStmts body.span body.stmts table
  | none => table

/-- The table of a file. -/
def ofFile (file : SourceFile) : Table :=
  let table := file.decls.foldl declare {}
  let table := file.decls.foldl declareGlobals table
  file.functions.foldl collectFunction table

end Table

end ScriptLowering
