import ScriptLowering.Grammar.Parse

/-!
# Trees up to places and identities

A tree is relabelled by changing its places and its identities and nothing else: names, texts and
shape stay. Trees without places (`Expr.unplaced` and its companions) have every node at the origin,
and trees without identities (`Expr.unnumbered`) have every statement numbered zero. Two trees are
equal up to places when they are equal without them, and so for identities.
-/

namespace ScriptLowering

section Relabelling

variable (place : Span → Span) (number : NodeId → NodeId)

def Name.relabel (name : Name) : Name := ⟨name.val, place name.span⟩

mutual

/-- The expression with other places and identities. -/
def Expr.relabel : Expr → Expr
  | .ident span name => .ident (place span) name
  | .lit span value => .lit (place span) value
  | .composite span type elems => .composite (place span) (relabelType? type) (relabelExprs elems)
  | .keyValue span key value => .keyValue (place span) key.relabel value.relabel
  | .funcLit span params results body =>
    .funcLit (place span) (relabelFields params) (relabelFields results) body.relabel
  | .paren span inner => .paren (place span) inner.relabel
  | .selector span base member => .selector (place span) base.relabel (member.relabel place)
  | .index span base key => .index (place span) base.relabel key.relabel
  | .slice span base low high max =>
    .slice (place span) base.relabel (relabelExpr? low) (relabelExpr? high) (relabelExpr? max)
  | .typeAssert span base type => .typeAssert (place span) base.relabel (relabelType? type)
  | .call span callee args spread => .call (place span) callee.relabel (relabelExprs args) spread
  | .unary span op operand => .unary (place span) op operand.relabel
  | .binary span op left right => .binary (place span) op left.relabel right.relabel
  | .type span type => .type (place span) type.relabel

def relabelExpr? : Option Expr → Option Expr
  | none => none
  | some e => some e.relabel

def relabelExprs : List Expr → List Expr
  | [] => []
  | e :: es => e.relabel :: relabelExprs es

def TypeExpr.relabel : TypeExpr → TypeExpr
  | .named name => .named name
  | .qualified package name => .qualified package name
  | .pointer elem => .pointer elem.relabel
  | .array length elem => .array (relabelExpr? length) elem.relabel
  | .map key elem => .map key.relabel elem.relabel
  | .chan direction elem => .chan direction elem.relabel
  | .func params results => .func (relabelFields params) (relabelFields results)
  | .struct fields => .struct (relabelFields fields)
  | .interface methods => .interface (relabelFields methods)
  | .variadic elem => .variadic elem.relabel

def relabelType? : Option TypeExpr → Option TypeExpr
  | none => none
  | some type => some type.relabel

def Field.relabel : Field → Field
  | ⟨names, ⟨type, span⟩⟩ => ⟨names.map (Name.relabel place), ⟨type.relabel, place span⟩⟩

def relabelFields : List Field → List Field
  | [] => []
  | field :: fields => field.relabel :: relabelFields fields

def Block.relabel : Block → Block
  | ⟨stmts, span⟩ => ⟨relabelStmts stmts, place span⟩

def Stmt.relabel : Stmt → Stmt
  | ⟨id, span, form⟩ => ⟨number id, place span, form.relabel⟩

def StmtForm.relabel : StmtForm → StmtForm
  | .decl decl => .decl decl.relabel
  | .empty => .empty
  | .labeled label stmt => .labeled (label.relabel place) stmt.relabel
  | .expr e => .expr e.relabel
  | .send chan value => .send chan.relabel value.relabel
  | .incDec e increments => .incDec e.relabel increments
  | .assign targets op values => .assign (relabelExprs targets) op (relabelExprs values)
  | .go call => .go call.relabel
  | .defer call => .defer call.relabel
  | .ret values => .ret (relabelExprs values)
  | .jump jump label => .jump jump (label.map (Name.relabel place))
  | .block body => .block body.relabel
  | .cond init test body otherwise =>
    .cond (relabelStmt? init) test.relabel body.relabel (relabelStmt? otherwise)
  | .switch init tag clauses =>
    .switch (relabelStmt? init) (relabelExpr? tag) (relabelCases clauses)
  | .typeSwitch init guard clauses =>
    .typeSwitch (relabelStmt? init) guard.relabel (relabelCases clauses)
  | .select clauses => .select (relabelComms clauses)
  | .loop init test post body =>
    .loop (relabelStmt? init) (relabelExpr? test) (relabelStmt? post) body.relabel
  | .range key value defines subject body =>
    .range (relabelExpr? key) (relabelExpr? value) defines subject.relabel body.relabel

def relabelStmt? : Option Stmt → Option Stmt
  | none => none
  | some stmt => some stmt.relabel

def relabelStmts : List Stmt → List Stmt
  | [] => []
  | stmt :: stmts => stmt.relabel :: relabelStmts stmts

def CaseClause.relabel : CaseClause → CaseClause
  | ⟨exprs, body, span⟩ => ⟨relabelLabel exprs, relabelStmts body, place span⟩

def relabelLabel : Option (List Expr) → Option (List Expr)
  | none => none
  | some es => some (relabelExprs es)

def relabelCases : List CaseClause → List CaseClause
  | [] => []
  | clause :: clauses => clause.relabel :: relabelCases clauses

def CommClause.relabel : CommClause → CommClause
  | ⟨comm, body, span⟩ => ⟨relabelStmt? comm, relabelStmts body, place span⟩

def relabelComms : List CommClause → List CommClause
  | [] => []
  | clause :: clauses => clause.relabel :: relabelComms clauses

def GenDecl.relabel : GenDecl → GenDecl
  | ⟨keyword, specs, span⟩ => ⟨keyword, relabelSpecs specs, place span⟩

def Spec.relabel : Spec → Spec
  | .value names type values =>
    .value (names.map (Name.relabel place)) (relabelLocated? type) (relabelExprs values)
  | .typeName name isAlias ⟨type, span⟩ =>
    .typeName (name.relabel place) isAlias ⟨type.relabel, place span⟩

def relabelLocated? : Option (Located TypeExpr) → Option (Located TypeExpr)
  | none => none
  | some ⟨type, span⟩ => some ⟨type.relabel, place span⟩

def relabelSpecs : List Spec → List Spec
  | [] => []
  | spec :: specs => spec.relabel :: relabelSpecs specs

end

attribute [simp] Expr.relabel TypeExpr.relabel Field.relabel Block.relabel Stmt.relabel
  StmtForm.relabel CaseClause.relabel CommClause.relabel GenDecl.relabel Spec.relabel

def Located.relabel (type : Located TypeExpr) : Located TypeExpr :=
  ⟨type.val.relabel place number, place type.span⟩

def FuncDecl.relabel (func : FuncDecl) : FuncDecl where
  receiver := func.receiver.map (List.map (Field.relabel place number))
  name := func.name.relabel place
  params := func.params.map (Field.relabel place number)
  results := func.results.map (Field.relabel place number)
  body := func.body.map (Block.relabel place number)
  span := place func.span

def Decl.relabel : Decl → Decl
  | .func decl => .func (decl.relabel place number)
  | .gen decl => .gen (decl.relabel place number)

@[simp] theorem relabelExpr?_eq (e : Option Expr) :
    relabelExpr? place number e = e.map (Expr.relabel place number) := by
  cases e <;> rfl

@[simp] theorem relabelExprs_eq (es : List Expr) :
    relabelExprs place number es = es.map (Expr.relabel place number) := by
  induction es with
  | nil => rfl
  | cons e es ih => simp [relabelExprs, ih]

@[simp] theorem relabelType?_eq (type : Option TypeExpr) :
    relabelType? place number type = type.map (TypeExpr.relabel place number) := by
  cases type <;> rfl

@[simp] theorem relabelFields_eq (fields : List Field) :
    relabelFields place number fields = fields.map (Field.relabel place number) := by
  induction fields with
  | nil => rfl
  | cons field fields ih => simp [relabelFields, ih]

@[simp] theorem relabelStmt?_eq (stmt : Option Stmt) :
    relabelStmt? place number stmt = stmt.map (Stmt.relabel place number) := by
  cases stmt <;> rfl

@[simp] theorem relabelStmts_eq (stmts : List Stmt) :
    relabelStmts place number stmts = stmts.map (Stmt.relabel place number) := by
  induction stmts with
  | nil => rfl
  | cons stmt stmts ih => simp [relabelStmts, ih]

@[simp] theorem relabelLabel_eq (label : Option (List Expr)) :
    relabelLabel place number label = label.map (List.map (Expr.relabel place number)) := by
  cases label <;> simp [relabelLabel]

@[simp] theorem relabelCases_eq (clauses : List CaseClause) :
    relabelCases place number clauses = clauses.map (CaseClause.relabel place number) := by
  induction clauses with
  | nil => rfl
  | cons clause clauses ih => simp [relabelCases, ih]

@[simp] theorem relabelComms_eq (clauses : List CommClause) :
    relabelComms place number clauses = clauses.map (CommClause.relabel place number) := by
  induction clauses with
  | nil => rfl
  | cons clause clauses ih => simp [relabelComms, ih]

@[simp] theorem relabelLocated?_eq (type : Option (Located TypeExpr)) :
    relabelLocated? place number type = type.map (Located.relabel place number) := by
  cases type <;> rfl

@[simp] theorem relabelSpecs_eq (specs : List Spec) :
    relabelSpecs place number specs = specs.map (Spec.relabel place number) := by
  induction specs with
  | nil => rfl
  | cons spec specs ih => simp [relabelSpecs, ih]

end Relabelling

/-! ## Without identities -/

abbrev Expr.unnumbered := Expr.relabel (fun span => span) fun _ => 0

abbrev TypeExpr.unnumbered := TypeExpr.relabel (fun span => span) fun _ => 0

abbrev Field.unnumbered := Field.relabel (fun span => span) fun _ => 0

abbrev Block.unnumbered := Block.relabel (fun span => span) fun _ => 0

abbrev Stmt.unnumbered := Stmt.relabel (fun span => span) fun _ => 0

abbrev CaseClause.unnumbered := CaseClause.relabel (fun span => span) fun _ => 0

abbrev CommClause.unnumbered := CommClause.relabel (fun span => span) fun _ => 0

abbrev Spec.unnumbered := Spec.relabel (fun span => span) fun _ => 0

abbrev FuncDecl.unnumbered := FuncDecl.relabel (fun span => span) fun _ => 0

abbrev Decl.unnumbered := Decl.relabel (fun span => span) fun _ => 0

abbrev Located.unnumbered := Located.relabel (fun span => span) fun _ => 0

@[simp] theorem Name.relabel_id : Name.relabel (fun span => span) = id := rfl

/-! ## Without places -/

abbrev Name.unplaced := Name.relabel fun _ => .origin

abbrev Expr.unplaced := Expr.relabel (fun _ => .origin) fun id => id

abbrev TypeExpr.unplaced := TypeExpr.relabel (fun _ => .origin) fun id => id

abbrev Field.unplaced := Field.relabel (fun _ => .origin) fun id => id

abbrev Block.unplaced := Block.relabel (fun _ => .origin) fun id => id

abbrev Stmt.unplaced := Stmt.relabel (fun _ => .origin) fun id => id

abbrev StmtForm.unplaced := StmtForm.relabel (fun _ => .origin) fun id => id

abbrev CaseClause.unplaced := CaseClause.relabel (fun _ => .origin) fun id => id

abbrev CommClause.unplaced := CommClause.relabel (fun _ => .origin) fun id => id

abbrev GenDecl.unplaced := GenDecl.relabel (fun _ => .origin) fun id => id

abbrev Spec.unplaced := Spec.relabel (fun _ => .origin) fun id => id

abbrev FuncDecl.unplaced := FuncDecl.relabel (fun _ => .origin) fun id => id

abbrev Decl.unplaced := Decl.relabel (fun _ => .origin) fun id => id

abbrev Located.unplaced := Located.relabel (fun _ => .origin) fun id => id

def Import.unplaced (item : Import) : Import := { item with span := .origin }

/-- The file with all its places at the origin. -/
def SourceFile.unplaced (file : SourceFile) : SourceFile where
  package := file.package.map Name.unplaced
  imports := file.imports.map Import.unplaced
  decls := file.decls.map Decl.unplaced
  nextId := file.nextId

/-- The token without its place and its layout. -/
def Token.unplaced (token : Token) : Token :=
  { token with span := .origin, afterNewline := false }

def Diagnostic.unplaced (report : Diagnostic) : Diagnostic := { report with span := .origin }

@[simp] theorem Expr.span_unplaced (e : Expr) : e.unplaced.span = .origin := by
  cases e <;> rfl

@[simp] theorem Expr.name?_unplaced (e : Expr) : e.unplaced.name? = e.name? := by
  cases e <;> rfl

namespace Grammar

def Simple.unplaced : Simple → Simple
  | stmt x => .stmt x.unplaced
  | range key value defines subject _ =>
    .range (key.map Expr.unplaced) (value.map Expr.unplaced) defines subject.unplaced .origin

def LoopHead.unplaced : LoopHead → LoopHead
  | range key value defines subject =>
    .range (key.map Expr.unplaced) (value.map Expr.unplaced) defines subject.unplaced
  | clauses init test post =>
    .clauses (init.map Stmt.unplaced) (test.map Expr.unplaced) (post.map Stmt.unplaced)

def ParamEntry.unplaced : ParamEntry → ParamEntry
  | lone name => .lone name.unplaced
  | named name type => .named name.unplaced type.unplaced
  | bare type => .bare type.unplaced

/-- The state of a parse without places. -/
def State.unplaced (s : State) : State where
  before := s.before.map fun _ => .origin
  current := s.current.unplaced
  ahead := s.ahead.map Token.unplaced
  depth := s.depth
  inHeader := s.inHeader
  nextId := s.nextId
  reports := s.reports.map Diagnostic.unplaced

@[simp] theorem compositeType?_unplaced (e : Expr) :
    compositeType? e.unplaced = (compositeType? e).map TypeExpr.unplaced := by
  cases e with
  | ident span name =>
    show (if name == "_" then none else some (TypeExpr.named name)) =
      (if name == "_" then none else some (TypeExpr.named name)).map TypeExpr.unplaced
    split <;> rfl
  | selector span base member => cases base <;> rfl
  | _ => rfl

@[simp] theorem isTypeGuard_unplaced (stmt : Stmt) :
    isTypeGuard stmt.unplaced = isTypeGuard stmt := by
  obtain ⟨id, span, form⟩ := stmt
  cases form with
  | expr e =>
    cases e with
    | typeAssert span base type => cases type <;> rfl
    | _ => rfl
  | assign targets op values =>
    -- Only a definition of one target by one value can bind a guard.
    rcases targets with _ | ⟨target, _ | ⟨second, targets⟩⟩
    · rfl
    · cases op with
      | define =>
        rcases values with _ | ⟨value, rest⟩
        · rfl
        · cases value with
          | typeAssert span base type => cases type <;> cases rest <;> rfl
          | _ => rfl
      | _ => rfl
    · rfl
  | _ => rfl

end Grammar

end ScriptLowering
