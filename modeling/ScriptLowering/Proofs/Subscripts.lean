import ScriptLowering.Proofs.Acceptance

/-!
# No element of a map is left

`SourceFile.nodes` lists every expression of a file. In a lowered file none of them subscripts
what the scope table of the lowering knows to be a map.

The lowering looks at a subscript before it goes into its operand, so the operand it looked at is
not the one it leaves behind. What it leaves is `Alike`: the two differ only in places on which
the type does not depend.
-/

namespace ScriptLowering

/-! ## All expressions of a tree -/

mutual

/-- An expression and all expressions in it, bodies of function literals included. Lengths in
written types are not among them. -/
def Expr.nodes (e : Expr) : List Expr :=
  e :: match e with
    | .ident .. | .lit .. | .type .. => []
    | .composite _ _ elems => nodesOfExprs elems
    | .keyValue _ left right | .index _ left right | .binary _ _ left right =>
      left.nodes ++ right.nodes
    | .funcLit _ _ _ ⟨stmts, _⟩ => nodesOfStmts stmts
    | .paren _ inner | .selector _ inner _ | .typeAssert _ inner _ | .unary _ _ inner =>
      inner.nodes
    | .slice _ base low high max =>
      base.nodes ++ nodesOfExpr? low ++ nodesOfExpr? high ++ nodesOfExpr? max
    | .call _ callee args _ => callee.nodes ++ nodesOfExprs args

def nodesOfExpr? : Option Expr → List Expr
  | none => []
  | some e => e.nodes

def nodesOfExprs : List Expr → List Expr
  | [] => []
  | e :: es => e.nodes ++ nodesOfExprs es

/-- All expressions in a statement, headers and inner statements included. -/
def Stmt.nodes : Stmt → List Expr
  | ⟨_, _, .empty⟩ | ⟨_, _, .jump ..⟩ => []
  | ⟨_, _, .decl ⟨_, specs, _⟩⟩ => nodesOfSpecs specs
  | ⟨_, _, .labeled _ stmt⟩ => stmt.nodes
  | ⟨_, _, .expr e⟩ | ⟨_, _, .incDec e _⟩ | ⟨_, _, .go e⟩ | ⟨_, _, .defer e⟩ => e.nodes
  | ⟨_, _, .send chan value⟩ => chan.nodes ++ value.nodes
  | ⟨_, _, .assign targets _ values⟩ => nodesOfExprs targets ++ nodesOfExprs values
  | ⟨_, _, .ret values⟩ => nodesOfExprs values
  | ⟨_, _, .block ⟨stmts, _⟩⟩ => nodesOfStmts stmts
  | ⟨_, _, .cond init test ⟨stmts, _⟩ otherwise⟩ =>
    nodesOfStmt? init ++ test.nodes ++ nodesOfStmts stmts ++ nodesOfStmt? otherwise
  | ⟨_, _, .switch init tag clauses⟩ =>
    nodesOfStmt? init ++ nodesOfExpr? tag ++ nodesOfCases clauses
  | ⟨_, _, .typeSwitch init guard clauses⟩ =>
    nodesOfStmt? init ++ guard.nodes ++ nodesOfCases clauses
  | ⟨_, _, .select clauses⟩ => nodesOfComms clauses
  | ⟨_, _, .loop init test post ⟨stmts, _⟩⟩ =>
    nodesOfStmt? init ++ nodesOfExpr? test ++ nodesOfStmt? post ++ nodesOfStmts stmts
  | ⟨_, _, .range key value _ subject ⟨stmts, _⟩⟩ =>
    nodesOfExpr? key ++ nodesOfExpr? value ++ subject.nodes ++ nodesOfStmts stmts

def nodesOfStmt? : Option Stmt → List Expr
  | none => []
  | some stmt => stmt.nodes

def nodesOfStmts : List Stmt → List Expr
  | [] => []
  | stmt :: stmts => stmt.nodes ++ nodesOfStmts stmts

def nodesOfCases : List CaseClause → List Expr
  | [] => []
  | ⟨none, body, _⟩ :: clauses => nodesOfStmts body ++ nodesOfCases clauses
  | ⟨some exprs, body, _⟩ :: clauses =>
    nodesOfExprs exprs ++ nodesOfStmts body ++ nodesOfCases clauses

def nodesOfComms : List CommClause → List Expr
  | [] => []
  | ⟨comm, body, _⟩ :: clauses => nodesOfStmt? comm ++ nodesOfStmts body ++ nodesOfComms clauses

def nodesOfSpecs : List Spec → List Expr
  | [] => []
  | .value _ _ values :: specs => nodesOfExprs values ++ nodesOfSpecs specs
  | .typeName .. :: specs => nodesOfSpecs specs

end

/-- All expressions of a declaration. -/
def Decl.nodes : Decl → List Expr
  | .func decl => (decl.body.map fun body => nodesOfStmts body.stmts).getD []
  | .gen decl => nodesOfSpecs decl.specs

/-- All expressions of a file. -/
def SourceFile.nodes (file : SourceFile) : List Expr := file.decls.flatMap Decl.nodes

/-! ## Types of what is left -/

/-- Two expressions that differ only where the type does not look: in the spelling of and-not, in
bodies of function literals, elements, keys and bounds, and in arguments after the first. -/
inductive Alike : Expr → Expr → Prop
  | ident {span name} : Alike (.ident span name) (.ident span name)
  | lit {span value} : Alike (.lit span value) (.lit span value)
  | type {span type} : Alike (.type span type) (.type span type)
  | composite {span type elems elems'} :
    Alike (.composite span type elems) (.composite span type elems')
  | keyValue {span key value key' value'} :
    Alike (.keyValue span key value) (.keyValue span key' value')
  | funcLit {span params results body body'} :
    Alike (.funcLit span params results body) (.funcLit span params results body')
  | paren {span inner inner'} : Alike inner inner' → Alike (.paren span inner) (.paren span inner')
  | selector {span base base' member} : Alike base base' →
    Alike (.selector span base member) (.selector span base' member)
  | index {span base base' key key'} : Alike base base' →
    Alike (.index span base key) (.index span base' key')
  | slice {span base base' low high max low' high' max'} : Alike base base' →
    Alike (.slice span base low high max) (.slice span base' low' high' max')
  | typeAssert {span base base' type} :
    Alike (.typeAssert span base type) (.typeAssert span base' type)
  | call {span callee callee' spread} : Alike callee callee' →
    Alike (.call span callee [] spread) (.call span callee' [] spread)
  | callWith {span callee callee' arg arg' args args' spread} : Alike callee callee' →
    Alike arg arg' →
    Alike (.call span callee (arg :: args) spread) (.call span callee' (arg' :: args') spread)
  | unary {span op operand operand'} : Alike operand operand' →
    Alike (.unary span op operand) (.unary span op operand')
  | binary {span op left left' right right'} : Alike left left' → Alike right right' →
    Alike (.binary span op left right) (.binary span op left' right')
  | andNot {span place left left' right right'} : Alike left left' → Alike right right' →
    Alike (.binary span .andNot left right)
      (.binary span .bitAnd left' (Lowering.complement place right'))

/-- A name that occurs in these expressions is looked up alike at two places. -/
def Table.LooksUpAlike (table : Table) (place place' : Span) (es : List Expr) : Prop :=
  ∀ span name, .ident span name ∈ es → table.lookup name place = table.lookup name place'

theorem Table.LooksUpAlike.part {table : Table} {place place'} {e x : Expr}
    (h : table.LooksUpAlike place place' e.surface) (hx : x ∈ e.parts) :
    table.LooksUpAlike place place' x.surface := by
  intro span name hmem
  refine h span name ?_
  rw [Expr.surface_eq]
  exact .tail _ (mem_surfaceOfExprs.2 ⟨x, hx, hmem⟩)

namespace Alike

variable {table : Table} {place place' : Span} {e e' : Expr}

theorem refl (e : Expr) : Alike e e := by
  match e with
  | .ident .. | .lit .. | .type .. | .composite .. | .keyValue .. | .funcLit .. | .typeAssert .. =>
    constructor
  | .paren _ inner => exact .paren (refl inner)
  | .selector _ base _ => exact .selector (refl base)
  | .index _ base _ => exact .index (refl base)
  | .slice _ base _ _ _ => exact .slice (refl base)
  | .call _ callee [] _ => exact .call (refl callee)
  | .call _ callee (arg :: _) _ => exact .callWith (refl callee) (refl arg)
  | .unary _ _ operand => exact .unary (refl operand)
  | .binary _ _ left right => exact .binary (refl left) (refl right)

theorem isLiteral_eq (h : Alike e e') : Table.isLiteral e = Table.isLiteral e' := by
  cases h <;> rfl

/-- A builtin function looks at its first argument only, and there only for a type. -/
theorem builtinResult_eq (h : Alike e e') (name : String) (args args' : List Expr)
    (callee first : Unit → Option TypeExpr) :
    table.builtinResult name (e :: args) callee first =
      table.builtinResult name (e' :: args') callee first := by
  unfold Table.builtinResult
  split <;> try rfl
  all_goals cases h <;> rfl

/-- What a call of `e` and a call of `e'` give, at places where their names are looked up alike and
with arguments that builtin functions cannot tell apart. -/
theorem valueType_and_callType (h : Alike e e')
    (hnames : table.LooksUpAlike place place' e.surface) :
    (∀ index, table.valueType place e index = table.valueType place' e' index) ∧
      ∀ index args args' callee first,
        (∀ name, table.builtinResult name args callee first =
          table.builtinResult name args' callee first) →
        table.callType place index args callee first e =
          table.callType place' index args' callee first e' := by
  induction h with
  | @ident span name =>
    have hname := hnames span name (by simp [Expr.surface])
    refine ⟨fun index => ?_, ?_⟩
    · cases index with
      | zero => simp only [Table.valueType, Table.identType, hname]
      | succ => rfl
    · intro index args args' callee first hargs
      simp only [Table.callType, hname, hargs]
  | lit | type | composite | keyValue | funcLit | typeAssert =>
    refine ⟨fun index => ?_, fun _ _ _ _ _ _ => rfl⟩
    rcases index with _ | _ | _ <;> rfl
  | paren _ ih =>
    have ih := ih (hnames.part (.head _))
    refine ⟨fun index => ?_, ?_⟩
    · simp only [Table.valueType, ih.1]
    · intro index args args' callee first hargs
      simp only [Table.callType]
      exact ih.2 index args args' callee first hargs
  | selector _ ih =>
    have ih := (ih (hnames.part (.head _))).1
    refine ⟨fun index => ?_, ?_⟩
    · cases index with
      | zero => simp only [Table.valueType, ih]
      | succ => rfl
    · intro index args args' callee first hargs
      simp only [Table.callType, ih]
  | index _ ih =>
    have ih := (ih (hnames.part (.head _))).1
    refine ⟨fun index => ?_, fun _ _ _ _ _ _ => rfl⟩
    rcases index with _ | _ | _
    iterate 2 simp [Table.valueType, ih]
    rfl
  | slice _ ih =>
    have ih := (ih (hnames.part (.head _))).1
    refine ⟨fun index => ?_, fun _ _ _ _ _ _ => rfl⟩
    cases index with
    | zero => simp only [Table.valueType, ih]
    | succ => rfl
  | call _ ih =>
    have ih := ih (hnames.part (.head _))
    refine ⟨fun index => ?_, fun _ _ _ _ _ _ => rfl⟩
    simp only [Table.valueType, ih.1]
    exact ih.2 index [] [] _ _ fun _ => rfl
  | callWith _ harg ihcallee iharg =>
    have ihcallee := ihcallee (hnames.part (.head _))
    have iharg := (iharg (hnames.part (.tail _ (.head _)))).1
    refine ⟨fun index => ?_, fun _ _ _ _ _ _ => rfl⟩
    -- a builtin function may look at the first argument, and at no other
    simp only [Table.valueType, Table.firstType, ihcallee.1, iharg]
    exact ihcallee.2 index _ _ _ _ fun name => harg.builtinResult_eq name _ _ _ _
  | @unary _ op _ _ _ ih =>
    have ih := (ih (hnames.part (.head _))).1
    refine ⟨fun index => ?_, fun _ _ _ _ _ _ => rfl⟩
    rcases index with _ | _ | _
    · simp only [Table.valueType, ih]
    iterate 2 cases op <;> rfl
  | binary hleft _ ihleft ihright =>
    have ihleft := (ihleft (hnames.part (.head _))).1
    have ihright := (ihright (hnames.part (.tail _ (.head _)))).1
    refine ⟨fun index => ?_, fun _ _ _ _ _ _ => rfl⟩
    cases index with
    | zero => simp only [Table.valueType, hleft.isLiteral_eq, ihleft, ihright]
    | succ => rfl
  | andNot hleft _ ihleft ihright =>
    have ihleft := (ihleft (hnames.part (.head _))).1
    have ihright := (ihright (hnames.part (.tail _ (.head _)))).1
    refine ⟨fun index => ?_, fun _ _ _ _ _ _ => rfl⟩
    cases index with
    | zero =>
      -- the complement has the type of its operand, and both operators the type of theirs
      simp only [Table.valueType, hleft.isLiteral_eq, ihleft, ihright, Lowering.complement]
      rfl
    | succ => rfl

theorem valueType_eq (h : Alike e e') (index : Nat) :
    table.valueType place e index = table.valueType place e' index :=
  (h.valueType_and_callType fun _ _ _ => rfl).1 index

theorem typeOf_eq (h : Alike e e') (table : Table) (place : Span) :
    table.resolver.typeOf e place = table.resolver.typeOf e' place := by
  simp only [Table.resolver, h.valueType_eq]

theorem span_eq (h : Alike e e') : e.span = e'.span := by
  cases h <;> rfl

theorem isContainerRead_eq (h : Alike e e') (table : Table) (place : Span) :
    table.resolver.isContainerRead place e = table.resolver.isContainerRead place e' := by
  cases h with
  | index hbase => simp only [Resolver.isContainerRead, hbase.typeOf_eq]
  | _ => rfl

end Alike

/-! ## Expressions -/

/-- None of the expressions subscripts a container that is known at its own place. -/
def Resolver.Clear (resolver : Resolver) (nodes : List Expr) : Prop :=
  ∀ e ∈ nodes, resolver.isContainerRead e.span e = false

section Clear

variable {resolver : Resolver} {e : Expr} {nodes more : List Expr}

@[simp] theorem Resolver.clear_nil : resolver.Clear [] := by simp [Clear]

@[simp] theorem Resolver.clear_cons :
    resolver.Clear (e :: nodes) ↔
      resolver.isContainerRead e.span e = false ∧ resolver.Clear nodes :=
  List.forall_mem_cons

@[simp] theorem Resolver.clear_append :
    resolver.Clear (nodes ++ more) ↔ resolver.Clear nodes ∧ resolver.Clear more :=
  List.forall_mem_append

@[simp] theorem Resolver.clear_nodesOfStmts {stmts} :
    resolver.Clear (nodesOfStmts stmts) ↔ ∀ stmt ∈ stmts, resolver.Clear stmt.nodes := by
  induction stmts with
  | nil => simp [nodesOfStmts]
  | cons stmt stmts ih => simp [nodesOfStmts, ih]

end Clear

namespace Lowering

/-- A lowering of sequences leaves no element of a map. -/
def SequenceLowering.Clearing (resolver : Resolver) (lowerSeq : SequenceLowering) : Prop :=
  ∀ names stmts, Yields (lowerSeq names stmts)
    (fun out => ∀ x ∈ out, resolver.Clear x.nodes) fun _ => True

section Expressions

variable {env : Env} {lowerSeq : SequenceLowering} {table : Table}

/-- Where the parts became others of the same types, so did the whole. -/
theorem Refills.alike {e e' es} (h : Refills e es e') (hes : List.Forall₂ Alike e.parts es) :
    Alike e e' := by
  cases h with
  | binary =>
    obtain ⟨hleft, hright⟩ := List.forall₂_cons.1 hes
    obtain ⟨hright, -⟩ := List.forall₂_cons.1 hright
    unfold lowerBinary
    split
    · rename_i hop
      subst hop
      exact .andNot hleft hright
    · exact .binary hleft hright
  | call =>
    obtain ⟨hcallee, hargs⟩ := List.forall₂_cons.1 hes
    cases hargs with
    | nil => exact .call hcallee
    | cons harg _ => exact .callWith hcallee harg
  | _ => constructor <;> exact (List.forall₂_cons.1 hes).1

theorem nodes_parts {e} (h : e.isLiteral = false) : e.nodes = e :: nodesOfExprs e.parts := by
  have happend (es es' : List Expr) :
      nodesOfExprs (es ++ es') = nodesOfExprs es ++ nodesOfExprs es' := by
    induction es <;> simp_all [nodesOfExprs]
  have hoption (e : Option Expr) : nodesOfExprs e.toList = nodesOfExpr? e := by
    cases e <;> simp [nodesOfExprs, nodesOfExpr?]
  cases e <;> simp_all [Expr.isLiteral, Expr.nodes, Expr.parts, nodesOfExprs]

theorem Refills.clear {e e' es} (h : Refills e es e') (hlit : e.isLiteral = false)
    (hread : table.resolver.isContainerRead e'.span e' = false)
    (hes : table.resolver.Clear (nodesOfExprs es)) : table.resolver.Clear e'.nodes := by
  rcases h.parts_eq with ⟨rfl, -⟩ | ⟨span, left, right, left', right', rfl, rfl, rfl⟩
  · rw [nodes_parts (h.isLiteral_eq.trans hlit)]
    exact Resolver.clear_cons.2 ⟨hread, hes⟩
  · simp only [nodesOfExprs, Resolver.clear_append] at hes
    simp [Expr.nodes, complement, Resolver.isContainerRead, hes]

/-- What an expression is lowered to has the same types and no element of a map in it. -/
def Clears (table : Table) (e e' : Expr) (_ _ : State) : Prop :=
  Alike e e' ∧ table.resolver.Clear e'.nodes

theorem clears_chain {es es' s s'} (h : Chain (Clears table) es es' s s') :
    List.Forall₂ Alike es es' ∧ table.resolver.Clear (nodesOfExprs es') := by
  induction h with
  | nil => exact ⟨.nil, by simp [nodesOfExprs]⟩
  | cons he _ ih => exact ⟨.cons he.1 ih.1, Resolver.clear_append.2 ⟨he.2, ih.2⟩⟩

section

variable (henv : env.resolver = table.resolver)
include henv

theorem enters_clear (hseq : lowerSeq.Clearing table.resolver) :
    Enters env lowerSeq (fun _ => True) (fun _ => True) (Clears table) (fun _ => True) where
  parts _ _ _ := trivial
  keeps _ _ := trivial
  body _ _ := by
    refine (hseq _ _ _).mono (fun out _ hout => ⟨.funcLit, ?_⟩) fun _ => id
    simpa [Expr.nodes, Resolver.isContainerRead] using hout
  node _ hlit hread hes hfill := by
    obtain ⟨hparts, hclear⟩ := clears_chain hes
    have halike := hfill.alike hparts
    -- The check was made before, of an expression of the same type.
    rw [henv, halike.isContainerRead_eq, halike.span_eq] at hread
    exact ⟨halike, hfill.clear hlit hread hclear⟩
  stop _ _ := trivial

theorem lowerExpr_clear (hseq : lowerSeq.Clearing table.resolver) (e : Expr) :
    Yields (lowerExpr env lowerSeq e)
      (fun r => Alike e r ∧ table.resolver.Clear r.nodes) fun _ => True :=
  fun _ => (enters_clear henv hseq).expr e trivial trivial

theorem lowerExpr?_clear (hseq : lowerSeq.Clearing table.resolver) (e : Option Expr) :
    Yields (lowerExpr? env lowerSeq e) (fun r => table.resolver.Clear (nodesOfExpr? r))
      fun _ => True := by
  cases e with
  | none => exact .pure (by simp [nodesOfExpr?])
  | some e => exact (lowerExpr_clear henv hseq e).bind fun e' he => .pure he.2

theorem lowerExprs_clear (hseq : lowerSeq.Clearing table.resolver) (es : List Expr) :
    Yields (lowerExprs env lowerSeq es)
      (fun r => List.Forall₂ Alike es r ∧ table.resolver.Clear (nodesOfExprs r))
      fun _ => True :=
  fun _ => ((enters_clear henv hseq).exprs (fun _ _ => trivial) trivial).mono
    (fun _ _ => clears_chain) fun _ => id

theorem lowerLabel_clear (hseq : lowerSeq.Clearing table.resolver) (exprs : Option (List Expr)) :
    Yields (lowerLabel env lowerSeq exprs)
      (fun r => ∀ es ∈ r, table.resolver.Clear (nodesOfExprs es)) fun _ => True := by
  cases exprs with
  | none => exact .pure (by simp)
  | some es =>
    refine (lowerExprs_clear henv hseq es).bind fun es' hes => .pure ?_
    simpa using hes.2

theorem lowerSpecs_clear (hseq : lowerSeq.Clearing table.resolver) (specs : List Spec) :
    Yields (lowerSpecs env lowerSeq specs) (fun r => table.resolver.Clear (nodesOfSpecs r))
      fun _ => True := by
  induction specs with
  | nil => exact .pure (by simp [nodesOfSpecs])
  | cons spec specs ih =>
    cases spec with
    | value names type values =>
      refine (lowerExprs_clear henv hseq values).bind fun values' hv => ?_
      refine ih.bind fun specs' hs => .pure ?_
      simpa [nodesOfSpecs] using ⟨hv.2, hs⟩
    | typeName name isAlias type => exact ih.bind fun specs' hs => .pure hs

theorem lowerGenDecl_clear (hseq : lowerSeq.Clearing table.resolver) (decl : GenDecl) :
    Yields (lowerGenDecl env lowerSeq decl)
      (fun r => table.resolver.Clear (nodesOfSpecs r.specs)) fun _ => True :=
  (lowerSpecs_clear henv hseq decl.specs).bind fun _ hs => .pure hs

omit henv in
theorem nodesOfExprs_complement {values} (h : table.resolver.Clear (nodesOfExprs values)) :
    table.resolver.Clear (nodesOfExprs (values.map fun value => complement value.span value)) := by
  induction values with
  | nil => simp [nodesOfExprs]
  | cons value values ih =>
    simp only [nodesOfExprs, Resolver.clear_append] at h
    simpa [nodesOfExprs, Expr.nodes, complement, Resolver.isContainerRead] using ⟨h.1, ih h.2⟩

theorem lowerAssign_clear (hseq : lowerSeq.Clearing table.resolver) (targets : List Expr)
    (op : AssignOp) (values : List Expr) (id : NodeId) (span : Span) :
    Yields (lowerAssign env lowerSeq targets op values)
      (fun form => table.resolver.Clear (Stmt.nodes ⟨id, span, form⟩)) fun _ => True := by
  refine (lowerExprs_clear henv hseq targets).bind fun targets' ht => ?_
  refine (lowerExprs_clear henv hseq values).bind fun values' hv => ?_
  split
  · exact .pure (Resolver.clear_append.2 ⟨ht.2, nodesOfExprs_complement hv.2⟩)
  · exact .pure (Resolver.clear_append.2 ⟨ht.2, hv.2⟩)

end

end Expressions

/-! ## The walk -/

/-- What the walk with a given amount of fuel leaves has no element of a map in it. -/
structure WalkClears (table : Table) (fuel : Nat) : Prop where
  seq : ∀ frame declared stmts, frame.env.resolver = table.resolver →
    Yields (lowerSeq fuel frame declared stmts)
      (fun out => ∀ x ∈ out, table.resolver.Clear x.nodes) fun _ => True
  stmt : ∀ frame stmt, frame.env.resolver = table.resolver → isSupported stmt.form = true →
    Yields (lowerStmt fuel frame stmt) (fun out => table.resolver.Clear out.nodes) fun _ => True
  block : ∀ frame block, frame.env.resolver = table.resolver →
    Yields (lowerBlock fuel frame block)
      (fun out => ∀ x ∈ out.stmts, table.resolver.Clear x.nodes) fun _ => True
  arms : ∀ frame clauses, frame.env.resolver = table.resolver →
    Yields (lowerCases fuel frame clauses)
      (fun out => table.resolver.Clear (nodesOfCases out)) fun _ => True
  header : ∀ frame stmt, frame.env.resolver = table.resolver →
    Yields (lowerHeader fuel frame stmt)
      (fun out => table.resolver.Clear (nodesOfStmt? out)) fun _ => True

namespace WalkClears

variable {table : Table} {fuel : Nat}

theorem zero : WalkClears table 0 where
  seq _ _ _ _ := by unfold lowerSeq; exact fun _ => trivial
  stmt _ _ _ _ := by unfold lowerStmt; exact fun _ => trivial
  block _ _ _ := by unfold lowerBlock; exact fun _ => trivial
  arms _ _ _ := by unfold lowerCases; exact fun _ => trivial
  header _ _ _ := by unfold lowerHeader; exact fun _ => trivial

/-- A walk that goes on past a check has found a statement it can enter. -/
theorem requireLegal_passed (stmt : Stmt) :
    Yields (requireLegal (stmt.ownViolations.map Violation.report))
      (fun _ => isSupported stmt.form = true) fun _ => True :=
  fun _ => (WalkRuns.ensures_legal stmt).mono (fun _ _ h => isSupported_of_own h.2)
    fun _ _ => trivial

/-- What is entered after a step can be entered. -/
theorem stepAt_supported (frame : Frame) (declared : List String) {stmt}
    (h : isSupported stmt.form = true) : Yields (stepAt fuel frame declared stmt)
      (fun step => ∀ entered more, step = .enter entered more → isSupported entered.form = true)
      fun _ => True := by
  intro s
  cases fuel with
  | zero => unfold stepAt; trivial
  | succ fuel =>
    refine (WalkRuns.stepAt_visits (fun _ _ => trivial) declared fun _ _ post _ _ _ =>
      (walk_runs frame.env fuel).seq frame.plan [] [post] s).mono ?_ fun _ h => h
    rintro step s' hstep entered more rfl
    cases hstep with
    | settle _ _ _ hsettles => exact hsettles.supported entered List.mem_cons_self
    | enter => exact h

variable (walk : WalkClears table fuel)
include walk

theorem seq_succ (frame : Frame) (declared : List String) (stmts : List Stmt)
    (henv : frame.env.resolver = table.resolver) :
    Yields (lowerSeq (fuel + 1) frame declared stmts)
      (fun out => ∀ x ∈ out, table.resolver.Clear x.nodes) fun _ => True := by
  cases stmts with
  | nil => exact .pure (by simp)
  | cons stmt rest =>
    refine (requireLegal_passed stmt).bind fun _ hstmt => ?_
    refine (stepAt_supported frame declared hstmt).bind fun step hstep => ?_
    cases step with
    | revisit stmts =>
      -- nothing is claimed of what a rule wrote: it is visited again
      exact walk.seq frame declared (stmts ++ rest) henv
    | enter entered more =>
      refine (walk.stmt frame entered henv (hstep entered more rfl)).bind fun out ho => ?_
      refine (walk.seq frame _ (more ++ rest) henv).bind fun outs hos => .pure ?_
      exact List.forall_mem_cons.2 ⟨ho, hos⟩

theorem block_succ (frame : Frame) (block : Block) (henv : frame.env.resolver = table.resolver) :
    Yields (lowerBlock (fuel + 1) frame block)
      (fun out => ∀ x ∈ out.stmts, table.resolver.Clear x.nodes) fun _ => True := by
  obtain ⟨stmts, span⟩ := block
  exact (walk.seq frame [] stmts henv).bind fun out ho => .pure ho

theorem literals (frame : Frame) (henv : frame.env.resolver = table.resolver) :
    SequenceLowering.Clearing table.resolver (lowerSeq fuel frame.literal) :=
  fun names stmts => walk.seq frame.literal names stmts henv

theorem arms_succ (frame : Frame) (clauses : List CaseClause)
    (henv : frame.env.resolver = table.resolver) :
    Yields (lowerCases (fuel + 1) frame clauses)
      (fun out => table.resolver.Clear (nodesOfCases out)) fun _ => True := by
  cases clauses with
  | nil => exact .pure (by simp [nodesOfCases])
  | cons clause clauses =>
    obtain ⟨exprs, body, span⟩ := clause
    refine (lowerLabel_clear henv (walk.literals frame henv) exprs).bind
      fun exprs' hexprs => ?_
    refine (walk.seq frame [] body henv).bind fun body' hbody => ?_
    refine (walk.arms frame clauses henv).bind fun clauses' hclauses => .pure ?_
    cases exprs' with
    | none => simpa [nodesOfCases] using ⟨hbody, hclauses⟩
    | some es => simpa [nodesOfCases] using ⟨hexprs es rfl, hbody, hclauses⟩

theorem header_succ (frame : Frame) (stmt : Option Stmt)
    (henv : frame.env.resolver = table.resolver) :
    Yields (lowerHeader (fuel + 1) frame stmt)
      (fun out => table.resolver.Clear (nodesOfStmt? out)) fun _ => True := by
  cases stmt with
  | none => exact .pure (by simp [nodesOfStmt?])
  | some stmt =>
    refine (requireLegal_passed stmt).bind fun _ hstmt => ?_
    have hrule : Yields (replaceStmt frame.env [] stmt)
        (fun r => ∀ x ∈ r, isSupported x.form = true) fun _ => True := fun s =>
      (replaceStmt_outcome [] s).mono (fun r _ hr x hx => by
        cases hx
        exact hr.1.supported) fun _ _ => trivial
    refine hrule.bind fun r hr => ?_
    split
    · exact (walk.stmt frame stmt henv hstmt).bind fun out ho => .pure ho
    · exact (walk.stmt frame _ henv (hr _ rfl)).bind fun out ho => .pure ho
    · exact .fail trivial

theorem stmt_succ (frame : Frame) (stmt : Stmt) (henv : frame.env.resolver = table.resolver)
    (h : isSupported stmt.form = true) :
    Yields (lowerStmt (fuel + 1) frame stmt) (fun out => table.resolver.Clear out.nodes)
      fun _ => True := by
  have hlit := walk.literals frame henv
  obtain ⟨id, span, form⟩ := stmt
  cases form with
  | decl decl =>
    refine (lowerGenDecl_clear henv hlit decl).bind ?_
    rintro ⟨kind, specs, place⟩ hd
    exact .pure hd
  | expr e | incDec e increments =>
    exact (lowerExpr_clear henv hlit e).bind fun _ he => .pure he.2
  | assign targets op values =>
    exact (lowerAssign_clear henv hlit targets op values id span).bind fun _ hf => .pure hf
  | ret values => exact (lowerExprs_clear henv hlit values).bind fun _ hv => .pure hv.2
  | block block =>
    refine (walk.block frame block henv).bind ?_
    rintro ⟨stmts, place⟩ ho
    exact .pure (Resolver.clear_nodesOfStmts.2 ho)
  | cond init test body otherwise =>
    refine (walk.header frame init henv).bind fun init' hinit => ?_
    refine (lowerExpr_clear henv hlit test).bind fun test' htest => ?_
    refine (walk.block frame body henv).bind ?_
    rintro ⟨stmts, place⟩ hbody
    cases otherwise with
    | none =>
      refine .pure ?_
      simpa [Stmt.nodes, nodesOfStmt?] using ⟨hinit, htest.2, hbody⟩
    | some stmt =>
      refine (Yields.any _).bind fun wrapped _ => ?_
      refine (requireLegal_passed wrapped).bind fun _ hwrapped => ?_
      refine (walk.stmt frame wrapped henv hwrapped).bind fun out ho => .pure ?_
      simpa [Stmt.nodes, nodesOfStmt?] using ⟨hinit, htest.2, hbody, ho⟩
  | switch init tag clauses =>
    refine (walk.header frame init henv).bind fun init' hinit => ?_
    refine (lowerExpr?_clear henv hlit tag).bind fun tag' htag => ?_
    refine (walk.arms frame clauses henv).bind fun clauses' hclauses => .pure ?_
    simpa [Stmt.nodes] using ⟨hinit, htag, hclauses⟩
  | loop init test post body =>
    refine (walk.header frame init henv).bind fun init' hinit => ?_
    refine (lowerExpr?_clear henv hlit test).bind fun test' htest => ?_
    refine (walk.header frame post henv).bind fun post' hpost => ?_
    refine (walk.block frame body henv).bind ?_
    rintro ⟨stmts, place⟩ hbody
    refine .pure ?_
    simpa [Stmt.nodes] using ⟨hinit, htest, hpost, hbody⟩
  | range key value defines subject body =>
    refine (lowerExpr?_clear henv hlit key).bind fun key' hkey => ?_
    refine (lowerExpr?_clear henv hlit value).bind fun value' hvalue => ?_
    refine (lowerExpr_clear henv hlit subject).bind fun subject' hsubject => ?_
    refine (walk.block frame body henv).bind ?_
    rintro ⟨stmts, place⟩ hbody
    refine .pure ?_
    simpa [Stmt.nodes] using ⟨hkey, hvalue, hsubject.2, hbody⟩
  | empty | jump jump label => exact .pure (by simp [Stmt.nodes])
  | labeled | go | defer | send | select | typeSwitch =>
    simp [isSupported] at h

end WalkClears

theorem walk_clears (table : Table) : ∀ fuel, WalkClears table fuel
  | 0 => .zero
  | fuel + 1 =>
    have walk := walk_clears table fuel
    { seq := walk.seq_succ
      stmt := walk.stmt_succ
      block := walk.block_succ
      arms := walk.arms_succ
      header := walk.header_succ }

/-! ## Functions and files -/

theorem lowerDecl_clear (table : Table) (fuel : Nat) (env : Env)
    (henv : env.resolver = table.resolver) (decl : Decl) :
    Yields (lowerDecl fuel env decl) (fun out => table.resolver.Clear out.nodes) fun _ => True := by
  have walk := walk_clears table fuel
  cases decl with
  | func decl =>
    refine ((Yields.any _).bind fun _ _ => ?_).bind fun func hfunc => .pure hfunc
    dsimp only
    split
    · rename_i hbody
      exact .pure (by simp [Decl.nodes, hbody])
    · rename_i body hbody
      refine (Yields.any _).bind fun locals _ => ?_
      refine (walk.seq _ _ _ henv).bind fun stmts hstmts => .pure ?_
      simpa [Decl.nodes] using hstmts
  | gen decl =>
    refine (Yields.any _).bind fun _ _ => ?_
    exact (lowerGenDecl_clear henv (fun names stmts => walk.seq _ names stmts henv) decl).bind
      fun out ho => .pure ho

end Lowering

open Lowering

/-- No element of a map that is known to a scope table, such as that of the file, is left in a
lowered file: whatever subscript stands anywhere in it, its operand has no type there or one that
is not a map. -/
theorem SourceFile.no_element_left (file : SourceFile) (fuel : Nat) (table : Table)
    (options : Lowering.Options) {lowered : Lowered}
    (h : file.lowerWith fuel table.resolver options = .ok lowered) {span : Span} {base key : Expr}
    (hnode : .index span base key ∈ lowered.file.nodes) :
    ∀ type ∈ table.resolver.typeOf base span, type.isContainer = false := by
  have hdecls := Yields.mapM (l := file.decls) fun decl _ =>
    lowerDecl_clear table fuel ⟨table.resolver, options, shapesOf file⟩ rfl decl
  obtain ⟨-, hclear, -⟩ := (lowerWith_outcome (hdecls _)).1 lowered h
  obtain ⟨decl, hdecl, hnode⟩ := List.mem_flatMap.1 hnode
  have hread := hclear decl hdecl _ hnode
  intro type htype
  rw [Option.mem_def] at htype
  simpa [Resolver.isContainerRead, Expr.span, htype] using hread

/-- The element of an array stays, and is known not to be one of a map. -/
theorem no_element_left_of_update :
    ∃ lowered, updating.lowerWith 40 (Table.ofFile updating).resolver {} = .ok lowered ∧
      elementAt 41 "a" "2" ∈ lowered.file.nodes ∧
      ∀ type ∈ (Table.ofFile updating).resolver.typeOf (.ident ⟨0, 41, 42⟩ "a") ⟨0, 41, 45⟩,
        type.isContainer = false := by
  have hrun : (updating.lowerWith 40 (Table.ofFile updating).resolver {}).toOption.bind
      (·.file.nodes[12]?) = some (elementAt 41 "a" "2") := rfl
  cases h : updating.lowerWith 40 (Table.ofFile updating).resolver {} with
  | error r => simp [h, Except.toOption] at hrun
  | ok lowered =>
    rw [h] at hrun
    have hnode := List.mem_of_getElem? hrun
    exact ⟨lowered, rfl, hnode, updating.no_element_left 40 _ {} h hnode⟩

end ScriptLowering
