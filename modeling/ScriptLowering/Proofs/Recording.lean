import ScriptLowering.Proofs.Nesting

/-!
# What a walk records

A scope table is filled by a walk over the bodies of a file. `Stmt.met` lists what the walk meets in
a statement, in order: function literals, names of variables, and types that are given a name. It
does not go everywhere: operands of subscripts, selections and slices, targets of assignments,
conditions, tags, labels, the test and the step of a loop, what is ranged over, and package-level
initializers are passed over.

What the walk does at a node is a list of acts (`TreeNode.acts`): it binds names in a scope, gives a
type a name, or goes on to another node. `Runs` says what acts do to a table and what they meet. The
walk over a node does the acts of the node (`TreeNode.runs`), so what is known of acts is known of
the walk: each binding is made by one that is done somewhere (`Act.DoneIn`), for a name that is met,
and its scope is the span of a node (`TreeNode.Owns`).
-/

namespace ScriptLowering

open List

open Grammar Lowering

/-- Something a walk meets. -/
inductive Met where
  | literal (params results : List Field) (body : Block)
  | vars (names : List String)
  | typeName (name : String) (type : TypeExpr)

namespace Met

/-- The names that are bound. -/
def names : Met → List String
  | literal params results _ => Field.boundNames params ++ Field.boundNames results
  | vars names => names
  | typeName .. => []

/-- The types that are given a name. -/
def types : Met → List (String × TypeExpr)
  | typeName name type => [(name, type)]
  | _ => []

end Met

mutual

/-- What a walk meets in an expression. -/
def Expr.met : Expr → List Met
  | .funcLit _ params results ⟨stmts, span⟩ =>
    .literal params results ⟨stmts, span⟩ :: metOfStmts stmts
  | .call _ callee args _ => callee.met ++ metOfExprs args
  | .paren _ inner | .unary _ _ inner => inner.met
  | .binary _ _ left right => left.met ++ right.met
  | .composite _ _ elems => metOfExprs elems
  | .keyValue _ _ value => value.met
  | _ => []

def metOfExprs : List Expr → List Met
  | [] => []
  | e :: es => e.met ++ metOfExprs es

/-- What a walk meets in a statement. -/
def Stmt.met : Stmt → List Met
  | ⟨_, _, .decl ⟨_, specs, _⟩⟩ => metOfSpecs specs
  | ⟨_, _, .assign targets op values⟩ =>
    metOfExprs values ++
      if op == .define then [.vars (targets.filterMap Expr.name?)] else []
  | ⟨_, _, .labeled _ stmt⟩ => stmt.met
  | ⟨_, _, .expr e⟩ | ⟨_, _, .go e⟩ | ⟨_, _, .defer e⟩ => e.met
  | ⟨_, _, .ret values⟩ => metOfExprs values
  | ⟨_, _, .block ⟨stmts, _⟩⟩ => metOfStmts stmts
  | ⟨_, _, .cond init _ ⟨stmts, _⟩ otherwise⟩ =>
    metOfStmt? init ++ (metOfStmts stmts ++ metOfStmt? otherwise)
  | ⟨_, _, .switch init _ clauses⟩ | ⟨_, _, .typeSwitch init _ clauses⟩ =>
    metOfStmt? init ++ metOfCases clauses
  | ⟨_, _, .select clauses⟩ => metOfComms clauses
  | ⟨_, _, .loop init _ _ ⟨stmts, _⟩⟩ => metOfStmt? init ++ metOfStmts stmts
  | ⟨_, _, .range key value defines _ ⟨stmts, _⟩⟩ =>
    (if defines then [.vars ((key.toList ++ value.toList).filterMap Expr.name?)] else []) ++
      metOfStmts stmts
  | ⟨_, _, .send ..⟩ | ⟨_, _, .incDec ..⟩ | ⟨_, _, .jump ..⟩ | ⟨_, _, .empty⟩ => []

def metOfStmt? : Option Stmt → List Met
  | none => []
  | some stmt => stmt.met

def metOfStmts : List Stmt → List Met
  | [] => []
  | stmt :: stmts => stmt.met ++ metOfStmts stmts

def metOfCases : List CaseClause → List Met
  | [] => []
  | ⟨_, body, _⟩ :: clauses => metOfStmts body ++ metOfCases clauses

def metOfComms : List CommClause → List Met
  | [] => []
  | ⟨comm, body, _⟩ :: clauses => (metOfStmt? comm ++ metOfStmts body) ++ metOfComms clauses

def metOfSpecs : List Spec → List Met
  | [] => []
  | .value names _ values :: specs =>
    (metOfExprs values ++ [.vars (names.map (·.val))]) ++ metOfSpecs specs
  | .typeName name _ type :: specs => .typeName name.val type.val :: metOfSpecs specs

end

/-- What a walk meets in the body of a function. -/
def FuncDecl.met (func : FuncDecl) : List Met :=
  (func.body.map fun body => metOfStmts body.stmts).getD []

/-- What a walk meets in a function: its own names, and what is in its body. -/
def FuncDecl.metIn (func : FuncDecl) : List Met :=
  ([.vars (Field.boundNames (func.receiver.getD []))] ++
    [.vars (Field.boundNames func.params)] ++ [.vars (Field.boundNames func.results)]) ++ func.met

/-- What a walk meets in a file. -/
def SourceFile.met (file : SourceFile) : List Met := file.functions.flatMap FuncDecl.met

/-- Record what a declaration binds. -/
def Table.collectDecl (table : Table) : Decl → Table
  | .func decl => table.collectFunction decl
  | .gen _ => table

namespace Table

/-- What is bound is appended, the blank name apart. -/
theorem bindAll_eq (table : Table) (vars : List (String × TypeExpr)) (scope : Span)
    (visibleFrom : Nat) : table.bindAll vars scope visibleFrom = { table with
      bindings := table.bindings ++ (vars.filter fun var => var.1 != "_").map fun var =>
        ⟨var.1, var.2, scope, visibleFrom⟩ } := by
  induction vars generalizing table with
  | nil => simp [bindAll]
  | cons var vars ih =>
    have hstep : table.bindAll (var :: vars) scope visibleFrom =
      (table.bind var.1 var.2 scope visibleFrom).bindAll vars scope visibleFrom := rfl
    rw [hstep, ih, bind]
    by_cases h : var.1 = "_" <;> simp [h]

/-- The names of a field list, with the types they have inside the function. -/
def fieldVars (fields : List Field) : List (String × TypeExpr) :=
  fields.flatMap fun field => field.names.map fun name => (name.val, parameterType field.type.val)

theorem fst_fieldVars (fields : List Field) :
    (fieldVars fields).map Prod.fst = Field.boundNames fields := by
  simp [fieldVars, Field.boundNames, map_flatMap, Function.comp_def]

theorem bindAll_append (table : Table) (vars vars' : List (String × TypeExpr)) (scope : Span)
    (visibleFrom : Nat) : table.bindAll (vars ++ vars') scope visibleFrom =
      (table.bindAll vars scope visibleFrom).bindAll vars' scope visibleFrom :=
  foldl_append

/-- A range variable with its type, when it is a name of known type. -/
def rangeVar (target : Option Expr) (type : Option TypeExpr) : List (String × TypeExpr) :=
  ((target.bind Expr.name?).bind fun name => type.map fun type => (name, type)).toList

theorem bindRangeVar_eq (table : Table) (target : Option Expr) (type : Option TypeExpr)
    (scope : Span) : table.bindRangeVar target type scope =
      table.bindAll (rangeVar target type) scope scope.start := by
  unfold bindRangeVar rangeVar
  cases target.bind Expr.name? <;> cases type <;> rfl

theorem mem_rangeVar {target type name} (h : name ∈ (rangeVar target type).map Prod.fst) :
    name ∈ target.toList.filterMap Expr.name? := by
  cases target with
  | none => simp [rangeVar] at h
  | some e =>
    cases hname : e.name? <;> cases type <;> simp_all [rangeVar]

variable {table : Table} {values : List Expr} {place : Span}

theorem mem_definedTypes {names name}
    (h : name ∈ (table.definedTypes names values place).map Prod.fst) : name ∈ names := by
  obtain ⟨⟨name, type⟩, hvars, rfl⟩ := mem_map.1 h
  unfold definedTypes at hvars
  split at hvars
  · obtain ⟨⟨name', value⟩, hmem, hvar⟩ := mem_filterMap.1 hvars
    obtain ⟨type', -, hpair⟩ := Option.map_eq_some_iff.1 hvar
    cases hpair
    exact (of_mem_zip hmem).1
  · split at hvars
    · obtain ⟨⟨name', index⟩, hmem, hvar⟩ := mem_filterMap.1 hvars
      obtain ⟨type', -, hpair⟩ := Option.map_eq_some_iff.1 hvar
      cases hpair
      exact fst_mem_of_mem_zipIdx hmem
    · simp at hvars

theorem mem_specTypes {names type name}
    (h : name ∈ (table.specTypes names type values place).map Prod.fst) :
    name ∈ names.map (·.val) := by
  unfold specTypes at h
  split at h
  · simpa using h
  · exact mem_definedTypes h

end Table

/-! ## What is done at a node -/

/-- Names that are bound at once in one scope: those that are met, where their types are known. -/
structure Binder where
  met : Met
  vars : Table → List (String × TypeExpr)
  scope : Span
  visibleFrom : Nat
  named : ∀ table, ∀ name ∈ (vars table).map Prod.fst, name ∈ met.names
  untyped : met.types = [] := by rfl

namespace Binder

/-- What is recorded. -/
def bindings (b : Binder) (table : Table) : List Binding :=
  ((b.vars table).filter fun var => var.1 != "_").map fun var =>
    ⟨var.1, var.2, b.scope, b.visibleFrom⟩

theorem of_mem {b : Binder} {table x} (h : x ∈ b.bindings table) :
    x.scope = b.scope ∧ x.visibleFrom = b.visibleFrom ∧ x.name ∈ b.met.names := by
  obtain ⟨var, hvar, rfl⟩ := mem_map.1 h
  exact ⟨rfl, rfl, b.named table _ (mem_map_of_mem (mem_of_mem_filter hvar))⟩

/-- The names of a field list, in a scope and from its start on. -/
def ofFields (fields : List Field) (scope : Span) : Binder where
  met := .vars (Field.boundNames fields)
  vars _ := Table.fieldVars fields
  scope := scope
  visibleFrom := scope.start
  named _ name h := by rwa [Table.fst_fieldVars] at h

/-- The names of the signature of a function literal. -/
def ofLiteral (params results : List Field) (body : Block) : Binder where
  met := .literal params results body
  vars _ := Table.fieldVars params ++ Table.fieldVars results
  scope := body.span
  visibleFrom := body.span.start
  named _ name h := by rwa [map_append, Table.fst_fieldVars, Table.fst_fieldVars] at h

/-- The names that an assignment defines. -/
def ofTargets (targets values : List Expr) (place scope : Span) : Binder where
  met := .vars (targets.filterMap Expr.name?)
  vars table := table.definedTypes (targets.filterMap Expr.name?) values place
  scope := scope
  visibleFrom := place.start
  named _ _ := Table.mem_definedTypes

/-- The names of a value specification. -/
def ofNames (names : List Name) (type : Option (Located TypeExpr)) (values : List Expr)
    (place scope : Span) : Binder where
  met := .vars (names.map (·.val))
  vars table := table.specTypes names type values place
  scope := scope
  visibleFrom := place.start
  named _ _ := Table.mem_specTypes

/-- The key and the value of a range. -/
def ofRange (key value : Option Expr) (subject : Expr) (place : Span) : Binder where
  met := .vars ((key.toList ++ value.toList).filterMap Expr.name?)
  vars table := Table.rangeVar key (table.rangeTypes subject place).1 ++
    Table.rangeVar value (table.rangeTypes subject place).2
  scope := place
  visibleFrom := place.start
  named table name h := by
    rw [map_append] at h
    rw [Met.names, filterMap_append]
    exact mem_append.2 ((mem_append.1 h).imp Table.mem_rangeVar Table.mem_rangeVar)

end Binder

/-- One thing that the walk does: it goes on to a node, which stands in a scope, or records. -/
inductive Act where
  | bind (b : Binder)
  | type (name : String) (type : TypeExpr)
  | visit (scope : Span) (node : TreeNode)

def visits (scope : Span) (nodes : List TreeNode) : List Act := nodes.map (.visit scope)

def Spec.acts (scope place : Span) : Spec → List Act
  | .value names type values =>
    visits scope (values.map .expr) ++ [.bind (.ofNames names type values place scope)]
  | .typeName name _ type => [.type name.val type.val]

def Expr.acts (scope : Span) : Expr → List Act
  | .funcLit _ params results body =>
    [.bind (.ofLiteral params results body), .visit scope (.block body)]
  | .call _ callee args _ => visits scope (.expr callee :: args.map .expr)
  | .paren _ inner | .unary _ _ inner | .keyValue _ _ inner => visits scope [.expr inner]
  | .binary _ _ left right => visits scope [.expr left, .expr right]
  | .composite _ _ elems => visits scope (elems.map .expr)
  | _ => []

def Stmt.acts (scope : Span) (x : Stmt) : List Act :=
  match x.form with
  | .decl decl => decl.specs.flatMap (Spec.acts scope x.span)
  | .assign targets op values =>
    visits scope (values.map .expr) ++
      if op == .define then [.bind (.ofTargets targets values x.span scope)] else []
  | .labeled _ stmt => visits scope [.stmt stmt]
  | .expr e | .go e | .defer e => visits scope [.expr e]
  | .ret values => visits scope (values.map .expr)
  | .block body => visits x.span [.block body]
  | .cond init _ body otherwise =>
    visits x.span (init.toList.map .stmt ++ .block body :: otherwise.toList.map .stmt)
  | .switch init _ clauses | .typeSwitch init _ clauses =>
    visits x.span (init.toList.map .stmt ++ clauses.map .caseClause)
  | .select clauses => visits x.span (clauses.map .commClause)
  | .loop init _ _ body => visits x.span (init.toList.map .stmt ++ [.block body])
  | .range key value defines subject body =>
    (if defines then [.bind (.ofRange key value subject x.span)] else []) ++
      visits x.span [.block body]
  | .send .. | .incDec .. | .jump .. | .empty => []

namespace TreeNode

/-- What the walk does at a node that stands in a scope. -/
def acts (scope : Span) : TreeNode → List Act
  | .expr e => e.acts scope
  | .stmt x => x.acts scope
  | .block body => visits body.span (body.stmts.map .stmt)
  | .caseClause clause => visits clause.span (clause.body.map .stmt)
  | .commClause clause => visits clause.span (clause.comm.toList.map .stmt ++ clause.body.map .stmt)
  | .decl (.func func) =>
    [.bind (.ofFields (func.receiver.getD []) func.span), .bind (.ofFields func.params func.span),
      .bind (.ofFields func.results func.span)] ++ visits func.span (func.body.toList.map .block)
  | _ => []

/-- The walk over a node that stands in a scope. -/
def collect (scope : Span) : TreeNode → Table → Table
  | .expr e, table => e.collect table
  | .stmt x, table => x.collect scope table
  | .block body, table => collectStmts body.span body.stmts table
  | .caseClause clause, table => collectStmts clause.span clause.body table
  | .commClause clause, table =>
    collectStmts clause.span clause.body (collectStmt? clause.span clause.comm table)
  | .decl declared, table => table.collectDecl declared
  | _, table => table

/-- What the walk meets in a node. -/
def met : TreeNode → List Met
  | .expr e => e.met
  | .stmt x => x.met
  | .block body => metOfStmts body.stmts
  | .caseClause clause => metOfStmts clause.body
  | .commClause clause => metOfStmt? clause.comm ++ metOfStmts clause.body
  | .decl (.func func) => func.metIn
  | _ => []

end TreeNode

/-- What doing these acts meets and makes of a table. -/
inductive Runs : List Act → List Met → Table → Table → Prop
  | nil {table} : Runs [] [] table table
  | bind {b acts met table table'} :
    Runs acts met (table.bindAll (b.vars table) b.scope b.visibleFrom) table' →
    Runs (.bind b :: acts) (b.met :: met) table table'
  | type {name type acts met table table'} :
    Runs acts met { table with types := (name, type) :: table.types } table' →
    Runs (.type name type :: acts) (.typeName name type :: met) table table'
  | visit {scope node acts met met' table table₁ table'} :
    Runs (node.acts scope) met table table₁ → Runs acts met' table₁ table' →
    Runs (.visit scope node :: acts) (met ++ met') table table'

namespace Runs

theorem append {acts acts' met met' table table1 table'} (h : Runs acts met table table1)
    (h' : Runs acts' met' table1 table') : Runs (acts ++ acts') (met ++ met') table table' := by
  induction h with
  | nil => exact h'
  | bind _ ih => exact .bind (ih h')
  | type _ ih => exact .type (ih h')
  | visit hnode _ _ ih =>
    rw [append_assoc]
    exact .visit hnode (ih h')

/-- Nodes that are visited one list after the other. -/
theorem seq {nodes nodes' scope met met' table table1 table'}
    (h : Runs (visits scope nodes) met table table1)
    (h' : Runs (visits scope nodes') met' table1 table') :
    Runs (visits scope (nodes ++ nodes')) (met ++ met') table table' := by
  rw [visits, map_append]
  exact h.append h'

theorem one {node scope met table table'} (h : Runs (node.acts scope) met table table') :
    Runs (visits scope [node]) met table table' := by
  rw [← append_nil met]
  exact .visit h .nil

end Runs

mutual

theorem Expr.runs (scope : Span) (e : Expr) (table : Table) :
    Runs (e.acts scope) e.met table (e.collect table) := by
  match e with
  | .ident .. | .lit .. | .type .. | .selector .. | .index .. | .slice .. | .typeAssert .. =>
    exact .nil
  | .funcLit _ params results ⟨stmts, inner⟩ =>
    refine .bind (.one ?_)
    rw [Binder.ofLiteral, Table.bindAll_append]
    exact stmtsRun inner stmts _
  | .composite _ _ elems => exact exprsRun scope elems table
  | .paren _ inner | .unary _ _ inner | .keyValue _ _ inner =>
    exact .one (Expr.runs scope inner table)
  | .binary _ _ left right =>
    exact .visit (Expr.runs scope left table) (.one (Expr.runs scope right _))
  | .call _ callee args _ => exact .visit (Expr.runs scope callee table) (exprsRun scope args _)

theorem exprsRun (scope : Span) (es : List Expr) (table : Table) :
    Runs (visits scope (es.map .expr)) (metOfExprs es) table (collectExprs es table) := by
  match es with
  | [] => exact .nil
  | e :: es => exact .visit (Expr.runs scope e table) (exprsRun scope es _)

theorem Stmt.runs (scope : Span) (x : Stmt) (table : Table) :
    Runs (x.acts scope) x.met table (x.collect scope table) := by
  match x with
  | ⟨id, span, .decl ⟨keyword, specs, _⟩⟩ => exact specsRun scope span specs table
  | ⟨id, span, .assign targets op values⟩ =>
    refine (exprsRun scope values table).append ?_
    cases op with
    | define => exact .bind .nil
    | _ => exact .nil
  | ⟨id, span, .labeled label inner⟩ => exact .one (Stmt.runs scope inner table)
  | ⟨id, span, .expr e⟩ | ⟨id, span, .go e⟩ | ⟨id, span, .defer e⟩ =>
    exact .one (Expr.runs scope e table)
  | ⟨id, span, .ret values⟩ => exact exprsRun scope values table
  | ⟨id, span, .incDec ..⟩ | ⟨id, span, .send ..⟩ | ⟨id, span, .empty⟩ | ⟨id, span, .jump ..⟩ =>
    exact .nil
  | ⟨id, span, .block ⟨stmts, inner⟩⟩ => exact .one (stmtsRun inner stmts table)
  | ⟨id, span, .cond init test ⟨stmts, inner⟩ otherwise⟩ =>
    exact (stmt?Runs span init table).seq
      (.visit (stmtsRun inner stmts _) (stmt?Runs span otherwise _))
  | ⟨id, span, .switch init tag clauses⟩ =>
    exact (stmt?Runs span init table).seq (casesRun span clauses _)
  | ⟨id, span, .typeSwitch init guard clauses⟩ =>
    exact (stmt?Runs span init table).seq (casesRun span clauses _)
  | ⟨id, span, .select clauses⟩ => exact commsRun span clauses table
  | ⟨id, span, .loop init test post ⟨stmts, inner⟩⟩ =>
    exact (stmt?Runs span init table).seq (.one (stmtsRun inner stmts _))
  | ⟨id, span, .range key value defines subject ⟨stmts, inner⟩⟩ =>
    cases defines with
    | false => exact .one (stmtsRun inner stmts table)
    | true =>
      refine .bind (.one ?_)
      rw [Binder.ofRange, Table.bindAll_append, ← Table.bindRangeVar_eq, ← Table.bindRangeVar_eq]
      exact stmtsRun inner stmts _

theorem stmt?Runs (scope : Span) (x : Option Stmt) (table : Table) :
    Runs (visits scope (x.toList.map .stmt)) (metOfStmt? x) table (collectStmt? scope x table) := by
  match x with
  | none => exact .nil
  | some x => exact .one (Stmt.runs scope x table)

theorem stmtsRun (scope : Span) (xs : List Stmt) (table : Table) :
    Runs (visits scope (xs.map .stmt)) (metOfStmts xs) table (collectStmts scope xs table) := by
  match xs with
  | [] => exact .nil
  | x :: xs => exact .visit (Stmt.runs scope x table) (stmtsRun scope xs _)

theorem casesRun (scope : Span) (clauses : List CaseClause) (table : Table) :
    Runs (visits scope (clauses.map .caseClause)) (metOfCases clauses) table
      (collectCases clauses table) := by
  match clauses with
  | [] => exact .nil
  | ⟨_, body, span⟩ :: clauses => exact .visit (stmtsRun span body table) (casesRun scope clauses _)

theorem commsRun (scope : Span) (clauses : List CommClause) (table : Table) :
    Runs (visits scope (clauses.map .commClause)) (metOfComms clauses) table
      (collectComms clauses table) := by
  match clauses with
  | [] => exact .nil
  | ⟨comm, body, span⟩ :: clauses =>
    exact .visit ((stmt?Runs span comm table).seq (stmtsRun span body _))
      (commsRun scope clauses _)

theorem specsRun (scope place : Span) (specs : List Spec) (table : Table) :
    Runs (specs.flatMap (Spec.acts scope place)) (metOfSpecs specs) table
      (collectSpecs scope place specs table) := by
  match specs with
  | [] => exact .nil
  | .value names type values :: specs =>
    exact ((exprsRun scope values table).append (.bind .nil)).append (specsRun scope place specs _)
  | .typeName name _ type :: specs => exact .type (specsRun scope place specs _)

end

/-- The walk over a node does the acts of the node. -/
theorem TreeNode.runs (scope : Span) (node : TreeNode) (table : Table) :
    Runs (node.acts scope) node.met table (node.collect scope table) := by
  cases node with
  | name | type | item => exact .nil
  | expr e => exact e.runs scope table
  | block body => exact stmtsRun body.span body.stmts table
  | stmt x => exact x.runs scope table
  | caseClause clause => exact stmtsRun clause.span clause.body table
  | commClause clause =>
    exact (stmt?Runs clause.span clause.comm table).seq (stmtsRun clause.span clause.body _)
  | decl declared =>
    cases declared with
    | gen decl => exact .nil
    | func func =>
      obtain ⟨receiver, name, params, results, body, span⟩ := func
      refine .bind (.bind (.bind ?_))
      cases body with
      | none => exact .nil
      | some body => exact .one (stmtsRun body.span body.stmts _)

/-! ## The table of a file -/

namespace Table

theorem bindings_foldl {α : Type} {f} (h : ∀ table a, (f table a).bindings = table.bindings)
    (as : List α) (table : Table) : (as.foldl f table).bindings = table.bindings := by
  induction as generalizing table with
  | nil => rfl
  | cons a as ih => rw [foldl_cons, ih, h]

theorem bindings_declare (table : Table) (decl : Decl) :
    (table.declare decl).bindings = table.bindings := by
  unfold declare
  split
  · split
    · rfl
    · split <;> rfl
  · exact bindings_foldl (fun _ spec => by cases spec <;> rfl) _ _

theorem bindings_declareGlobals (table : Table) (decl : Decl) :
    (table.declareGlobals decl).bindings = table.bindings := by
  unfold declareGlobals
  split
  · rfl
  · refine bindings_foldl (fun table spec => ?_) _ _
    cases spec with
    | value =>
      apply bindings_foldl
      exact fun _ _ => rfl
    | typeName => rfl

theorem foldl_functions (file : SourceFile) (table : Table) :
    file.functions.foldl collectFunction table = file.decls.foldl collectDecl table := by
  unfold SourceFile.functions
  induction file.decls generalizing table with
  | nil => rfl
  | cons decl decls ih => cases decl <;> exact ih _

end Table

/-- The functions of a file are walked over one after another. -/
theorem declsRun (scope : Span) (decls : List Decl) (table : Table) :
    Runs (visits scope (decls.map .decl)) ((decls.map .decl).flatMap TreeNode.met) table
      (decls.foldl Table.collectDecl table) := by
  induction decls generalizing table with
  | nil => exact .nil
  | cons decl decls ih => exact .visit (TreeNode.runs scope (.decl decl) table) (ih _)

/-- The table of a file has the bindings that the walk records. -/
theorem Table.ofFile_runs (file : SourceFile) (scope : Span) : ∃ table, table.bindings = [] ∧
    Runs (visits scope (file.decls.map .decl)) ((file.decls.map .decl).flatMap TreeNode.met) table
      (ofFile file) := by
  refine ⟨file.decls.foldl declareGlobals (file.decls.foldl declare {}), ?_, ?_⟩
  · rw [bindings_foldl bindings_declareGlobals, bindings_foldl bindings_declare]
  · rw [ofFile, foldl_functions]
    exact declsRun scope file.decls _

/-! ## What is done somewhere -/

/-- While these acts are done, this one is: it is one of them, or is done at a node that is
visited. -/
inductive Act.DoneIn (act : Act) : List Act → Prop
  | own {acts} : act ∈ acts → act.DoneIn acts
  | visit {acts scope node} : .visit scope node ∈ acts → act.DoneIn (node.acts scope) →
    act.DoneIn acts

namespace Act.DoneIn

variable {act : Act} {acts : List Act} {scope : Span} {node : TreeNode}

theorem cons {first} (h : act.DoneIn acts) : act.DoneIn (first :: acts) := by
  cases h with
  | own hmem => exact .own (mem_cons_of_mem _ hmem)
  | visit hmem h => exact .visit (mem_cons_of_mem _ hmem) h

theorem of_cons {first} (h : act.DoneIn (first :: acts)) :
    first = act ∨ (∃ scope node, first = .visit scope node ∧ act.DoneIn (node.acts scope)) ∨
      act.DoneIn acts := by
  cases h with
  | own hmem =>
    rcases mem_cons.1 hmem with rfl | hmem
    · exact .inl rfl
    · exact .inr (.inr (.own hmem))
  | visit hmem h =>
    rcases mem_cons.1 hmem with rfl | hmem
    · exact .inr (.inl ⟨_, _, rfl, h⟩)
    · exact .inr (.inr (.visit hmem h))

/-- What holds of a node where the act is done, and of one from which the walk goes on to such a
node, holds of every node in which it is done. -/
theorem induct {M : Span → TreeNode → Prop}
    (own : ∀ {scope node}, act ∈ node.acts scope → M scope node)
    (visit : ∀ {scope node inner child}, .visit inner child ∈ node.acts scope →
      act.DoneIn (child.acts inner) → M inner child → M scope node)
    (h : act.DoneIn (node.acts scope)) : M scope node := by
  generalize hacts : node.acts scope = acts at h
  induction h generalizing scope node with
  | own hmem => exact own (hacts ▸ hmem)
  | visit hmem h ih => exact visit (hacts ▸ hmem) h (ih rfl)

end Act.DoneIn

namespace Runs

variable {acts : List Act} {met : List Met} {table table' : Table}

/-- Bindings are appended, each by a binder that is done somewhere, and the types that are met are
added. -/
theorem eq (h : Runs acts met table table') : ∃ new, table' = { table with
      bindings := table.bindings ++ new
      types := (met.flatMap Met.types).reverse ++ table.types } ∧
    ∀ x ∈ new, ∃ b before, (Act.bind b).DoneIn acts ∧ x ∈ b.bindings before := by
  induction h with
  | nil => exact ⟨[], by simp, by simp⟩
  | @bind b _ _ table _ _ ih =>
    obtain ⟨new, rfl, hnew⟩ := ih
    refine ⟨b.bindings table ++ new, ?_, fun x hx => ?_⟩
    · rw [Table.bindAll_eq]
      simp [Binder.bindings, b.untyped]
    · rcases mem_append.1 hx with hx | hx
      · exact ⟨b, table, .own mem_cons_self, hx⟩
      · obtain ⟨b', before, hb', hx⟩ := hnew x hx
        exact ⟨b', before, hb'.cons, hx⟩
  | type _ ih =>
    obtain ⟨new, rfl, hnew⟩ := ih
    refine ⟨new, by simp [Met.types], fun x hx => ?_⟩
    obtain ⟨b, before, hb, hx⟩ := hnew x hx
    exact ⟨b, before, hb.cons, hx⟩
  | visit _ _ ih ih' =>
    obtain ⟨new, rfl, hnew⟩ := ih
    obtain ⟨new', rfl, hnew'⟩ := ih'
    refine ⟨new ++ new', by simp, fun x hx => ?_⟩
    rcases mem_append.1 hx with hx | hx
    · obtain ⟨b, before, hb, hx⟩ := hnew x hx
      exact ⟨b, before, .visit mem_cons_self hb, hx⟩
    · obtain ⟨b, before, hb, hx⟩ := hnew' x hx
      exact ⟨b, before, hb.cons, hx⟩

theorem subset (h : Runs acts met table table') : table.bindings ⊆ table'.bindings := by
  obtain ⟨new, rfl, -⟩ := h.eq
  exact subset_append_left _ _

/-- What a binder that is done somewhere binds is met and stays recorded. -/
theorem recorded (h : Runs acts met table table') {b} (hb : (Act.bind b).DoneIn acts) :
    b.met ∈ met ∧ ∃ before, b.bindings before ⊆ table'.bindings := by
  induction h with
  | nil => cases hb <;> contradiction
  | @bind _ _ _ table _ hrest ih =>
    rcases hb.of_cons with hself | ⟨_, _, hself, -⟩ | hb
    · cases hself
      refine ⟨mem_cons_self, table, fun x hx => hrest.subset ?_⟩
      rw [Table.bindAll_eq]
      exact mem_append_right _ hx
    · cases hself
    · exact (ih hb).imp_left (mem_cons_of_mem _)
  | type _ ih =>
    rcases hb.of_cons with hself | ⟨_, _, hself, -⟩ | hb
    · cases hself
    · cases hself
    · exact (ih hb).imp_left (mem_cons_of_mem _)
  | visit _ hrest ih ih' =>
    rcases hb.of_cons with hself | ⟨_, _, hself, hb⟩ | hb
    · cases hself
    · cases hself
      obtain ⟨hmet, before, hsub⟩ := ih hb
      exact ⟨mem_append_left _ hmet, before, fun x hx => hrest.subset (hsub hx)⟩
    · exact (ih' hb).imp_left (mem_append_right _)

/-- What is met is a type that is given a name, or is bound somewhere. -/
theorem of_met (h : Runs acts met table table') {m} (hm : m ∈ met) (htypes : m.types = []) :
    ∃ b, (Act.bind b).DoneIn acts ∧ b.met = m := by
  induction h with
  | nil => simp at hm
  | @bind b _ _ _ _ _ ih =>
    rcases mem_cons.1 hm with rfl | hm
    · exact ⟨b, .own mem_cons_self, rfl⟩
    · obtain ⟨b', hb', hmet⟩ := ih hm
      exact ⟨b', hb'.cons, hmet⟩
  | type _ ih =>
    rcases mem_cons.1 hm with rfl | hm
    · simp [Met.types] at htypes
    · obtain ⟨b, hb, hmet⟩ := ih hm
      exact ⟨b, hb.cons, hmet⟩
  | visit _ _ ih ih' =>
    rcases mem_append.1 hm with hm | hm
    · obtain ⟨b, hb, hmet⟩ := ih hm
      exact ⟨b, .visit mem_cons_self hb, hmet⟩
    · obtain ⟨b, hb, hmet⟩ := ih' hm
      exact ⟨b, hb.cons, hmet⟩

end Runs

/-! ## Where the scopes are -/

/-- The statement behind its labels. -/
def Stmt.unlabeled : Stmt → Stmt
  | ⟨_, _, .labeled _ stmt⟩ => stmt.unlabeled
  | stmt => stmt

section Scopes

variable {scope inner : Span} {node child : TreeNode} {b : Binder}

/-- The node that the visited ones stand right below: the declaration in a statement, and all other
nodes themselves. -/
def TreeNode.host : TreeNode → TreeNode
  | .stmt ⟨_, _, .decl declared⟩ => .decl (.gen declared)
  | node => node

theorem TreeNode.above_host (node : TreeNode) : node.Above node.host := by
  unfold host
  split
  · exact above_child (mem_singleton_self _)
  · exact .refl _

theorem TreeNode.mem_of_visit (h : .visit inner child ∈ node.acts scope) :
    child ∈ node.host.children := by
  cases node with
  | expr e =>
    cases e <;> simp [acts, Expr.acts, visits, host, children, Expr.treeNodes] at h ⊢ <;> grind
  | stmt x =>
    obtain ⟨id, span, form⟩ := x
    cases form with
    | decl declared =>
      obtain ⟨spec, hspec, h⟩ := mem_flatMap.1 h
      refine mem_flatMap.2 ⟨spec, hspec, ?_⟩
      cases spec <;> simp [Spec.acts, visits, Spec.treeNodes] at h ⊢
      grind
    | _ => simp [acts, Stmt.acts, visits, host, children, StmtForm.treeNodes] at h ⊢ <;> grind
  | decl declared =>
    cases declared <;> simp [acts, visits, host, children, Decl.treeNodes] at h ⊢
    grind
  | _ => simp [acts, visits, host, children] at h ⊢ <;> grind

theorem TreeNode.above_visit (h : .visit inner child ∈ node.acts scope) : node.Above child :=
  node.above_host.trans (above_child (mem_of_visit h))

/-- A statement that is visited stands right below. -/
theorem TreeNode.mem_of_visit_stmt {x} (h : .visit inner (.stmt x) ∈ node.acts scope) :
    .stmt x ∈ node.children := by
  have hmem := mem_of_visit h
  unfold host at hmem
  split at hmem
  · obtain ⟨spec, -, hmem⟩ := mem_flatMap.1 hmem
    cases spec <;> simp [Spec.treeNodes] at hmem
  · exact hmem

/-- What is visited stands in the scope of the node, or in the one that the node stands in. Only a
label puts a statement into the latter. -/
theorem TreeNode.scope_of_visit (h : .visit inner child ∈ node.acts scope) : inner = node.span ∨
    inner = scope ∧
      ∀ y, child = .stmt y → ∃ x label, node = .stmt x ∧ x.form = .labeled label y := by
  cases node with
  | expr e => cases e <;> simp [acts, Expr.acts, visits] at h <;> grind
  | stmt x =>
    obtain ⟨id, span, form⟩ := x
    cases form with
    | decl declared =>
      obtain ⟨spec, hspec, h⟩ := mem_flatMap.1 h
      cases spec <;> simp [Spec.acts, visits] at h
      grind
    | _ => simp [acts, Stmt.acts, visits] at h <;> grind [TreeNode.span]
  | decl declared =>
    cases declared <;> simp [acts, visits] at h
    grind [TreeNode.span, Decl.span]
  | _ => simp [acts, visits] at h <;> grind [TreeNode.span]

/-- A node that names can be bound in. -/
def TreeNode.isFrame : TreeNode → Bool
  | .block _ | .stmt _ | .caseClause _ | .commClause _ | .decl (.func _) => true
  | _ => false

/-- The scope of the binder is that of the node: it is there from the start on, or from a statement
on that stands in it. -/
inductive TreeNode.Owns (node : TreeNode) (b : Binder) : Prop
  | whole (scope : b.scope = node.span) (start : b.visibleFrom = node.span.start)
    (frame : node.isFrame = true) (arm : ∀ clause, node ≠ .caseClause clause)
  | part {around : Span} {x : Stmt} (visited : .visit node.span (.stmt x) ∈ node.acts around)
    (scope : b.scope = node.span) (start : b.visibleFrom = x.unlabeled.span.start)
    (names : ∀ name ∈ b.met.names, name ∈ declaredNames x.unlabeled)

theorem TreeNode.Owns.scope_eq (h : node.Owns b) : b.scope = node.span := by
  cases h <;> assumption

theorem TreeNode.Owns.isFrame (h : node.Owns b) : node.isFrame = true := by
  cases h with
  | whole _ _ frame => exact frame
  | part visited =>
    cases node with
    | expr e => cases e <;> simp [acts, Expr.acts, visits] at visited
    | decl declared =>
      cases declared with
      | func => rfl
      | gen => cases visited
    | name | type | item => cases visited
    | _ => rfl

/-- The scope of the binder is that around the statement. -/
structure Stmt.Binds (x : Stmt) (scope : Span) (b : Binder) : Prop where
  scope : b.scope = scope
  start : b.visibleFrom = x.unlabeled.span.start
  names : ∀ name ∈ b.met.names, name ∈ declaredNames x.unlabeled

/-- What is bound at a node. -/
inductive TreeNode.BindsAt (scope : Span) : TreeNode → Binder → Prop
  | literal {span params results body} :
    BindsAt scope (.expr (.funcLit span params results body)) (.ofLiteral params results body)
  | names {id span declared names type values} : .value names type values ∈ GenDecl.specs declared →
    BindsAt scope (.stmt ⟨id, span, .decl declared⟩) (.ofNames names type values span scope)
  | targets {id span targets values} :
    BindsAt scope (.stmt ⟨id, span, .assign targets .define values⟩)
      (.ofTargets targets values span scope)
  | range {id span key value subject body} :
    BindsAt scope (.stmt ⟨id, span, .range key value true subject body⟩)
      (.ofRange key value subject span)
  | fields {func fields} : BindsAt scope (.decl (.func func)) (.ofFields fields func.span)

theorem TreeNode.bindsAt_of_mem (h : .bind b ∈ node.acts scope) : node.BindsAt scope b := by
  cases node with
  | expr e =>
    cases e with
    | funcLit span params results body =>
      obtain rfl : b = .ofLiteral params results body := by simpa [acts, Expr.acts] using h
      exact .literal
    | _ => simp [acts, Expr.acts, visits] at h
  | stmt x =>
    obtain ⟨id, span, form⟩ := x
    cases form with
    | decl declared =>
      obtain ⟨spec, hspec, h⟩ := mem_flatMap.1 h
      cases spec with
      | typeName => simp [Spec.acts] at h
      | value names type values =>
        obtain rfl : b = .ofNames names type values span scope := by
          simpa [Spec.acts, visits] using h
        exact .names hspec
    | assign targets op values =>
      cases op with
      | define =>
        obtain rfl : b = .ofTargets targets values span scope := by
          simpa [acts, Stmt.acts, visits] using h
        exact .targets
      | _ => simp [acts, Stmt.acts, visits] at h
    | range key value defines subject body =>
      cases defines with
      | false => simp [acts, Stmt.acts, visits] at h
      | true =>
        obtain rfl : b = .ofRange key value subject span := by
          simpa [acts, Stmt.acts, visits] using h
        exact .range
    | _ => simp [acts, Stmt.acts, visits] at h
  | decl declared =>
    cases declared with
    | gen => cases h
    | func func =>
      simp only [acts, visits, map_map, mem_append, mem_cons, Act.bind.injEq,
        not_mem_nil, or_false] at h
      rcases h with (rfl | rfl | rfl) | h
      · exact .fields
      · exact .fields
      · exact .fields
      · simp at h
  | _ => simp [acts, visits] at h

/-- Every scope in a node is the span of a node below, unless it is the one around a statement. -/
theorem TreeNode.owns_of_done (h : (Act.bind b).DoneIn (node.acts scope)) :
    (∃ owner, node.Above owner ∧ owner.Owns b) ∨ ∃ x, node = .stmt x ∧ x.Binds scope b := by
  refine Act.DoneIn.induct (M := fun scope node => (∃ owner, node.Above owner ∧ owner.Owns b) ∨
    ∃ x, node = .stmt x ∧ x.Binds scope b) (fun hmem => ?_) (fun hvisit _ ih => ?_) h
  · cases bindsAt_of_mem hmem with
    | literal =>
      exact .inl ⟨_, above_child (mem_append_right _ (mem_singleton_self _)),
        .whole rfl rfl rfl (by simp)⟩
    | range | fields => exact .inl ⟨_, .refl _, .whole rfl rfl rfl (by simp)⟩
    | targets => exact .inr ⟨_, rfl, rfl, rfl, fun name hname => hname⟩
    | names hspec =>
      exact .inr ⟨_, rfl, rfl, rfl, fun name hname => mem_flatMap.2 ⟨_, hspec, hname⟩⟩
  · rcases ih with ⟨owner, habove, howns⟩ | ⟨x, rfl, hbinds⟩
    · exact .inl ⟨owner, (above_visit hvisit).trans habove, howns⟩
    · rcases scope_of_visit hvisit with rfl | ⟨rfl, hlabel⟩
      · exact .inl ⟨_, .refl _, .part hvisit hbinds.scope hbinds.start hbinds.names⟩
      · obtain ⟨⟨id, span, form⟩, label, rfl, hform⟩ := hlabel x rfl
        obtain rfl : form = .labeled label x := hform
        exact .inr ⟨_, rfl, hbinds.scope, hbinds.start, hbinds.names⟩

/-- Every binding of a file is made somewhere in one of its declarations. -/
theorem SourceFile.done_of_mem {file x} (hx : x ∈ (Table.ofFile file).bindings) (scope : Span) :
    ∃ node ∈ file.decls.map TreeNode.decl, ∃ b before,
      (Act.bind b).DoneIn (node.acts scope) ∧ x ∈ b.bindings before := by
  obtain ⟨table, hnone, hruns⟩ := Table.ofFile_runs file scope
  obtain ⟨new, hall, hnew⟩ := hruns.eq
  rw [hall, hnone, nil_append] at hx
  obtain ⟨b, before, hb, hx⟩ := hnew x hx
  cases hb with
  | own hmem => simp [visits] at hmem
  | visit hmem hb =>
    obtain ⟨node, hnode, hvisit⟩ := mem_map.1 hmem
    cases hvisit
    exact ⟨_, hnode, b, before, hb, hx⟩

/-- Its scope is the span of a node. -/
theorem SourceFile.owner_of_mem {file x} (hx : x ∈ (Table.ofFile file).bindings) :
    ∃ node ∈ file.decls.map TreeNode.decl, ∃ owner b before, node.Above owner ∧ owner.Owns b ∧
      x ∈ b.bindings before := by
  obtain ⟨node, hnode, b, before, hb, hx⟩ := done_of_mem hx default
  rcases TreeNode.owns_of_done hb with ⟨owner, habove, howns⟩ | ⟨stmt, rfl, -⟩
  · exact ⟨node, hnode, owner, b, before, habove, howns, hx⟩
  · simp at hnode

end Scopes

end ScriptLowering
