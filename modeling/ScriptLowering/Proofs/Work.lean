import Mathlib.Algebra.GroupWithZero.Nat
import ScriptLowering.Proofs.Returns

/-!
# The work left in a tree

A number for every tree that each step of the walk makes smaller, although the sequence it stands
in grows: a statement that a rule puts in front is paid for by what the rule removes. A subscript
may turn out to be an element, which is worth two statements; the target of an update is evaluated
twice; a tuple is first split and then completed; an initializer may need a block, and a value of a
declaration an assignment. A return is worth the stores that its plan asks for, until it is settled.
-/

namespace ScriptLowering

open List

variable {cost cost' : NodeId → Nat} {e read : Expr} {place : Span}

/-! ## Subscripts -/

mutual

/-- The number of subscripts that are evaluated with an expression. -/
def Expr.subscripts : Expr → Nat
  | .ident .. | .lit .. | .type .. | .funcLit .. => 0
  | .composite _ _ elems => subscriptsOfExprs elems
  | .index _ base key => 1 + base.subscripts + key.subscripts
  | .keyValue _ left right | .binary _ _ left right => left.subscripts + right.subscripts
  | .paren _ inner | .selector _ inner _ | .typeAssert _ inner _ | .unary _ _ inner =>
    inner.subscripts
  | .slice _ base low high max =>
    base.subscripts + subscriptsOfExpr? low + subscriptsOfExpr? high + subscriptsOfExpr? max
  | .call _ callee args _ => callee.subscripts + subscriptsOfExprs args

def subscriptsOfExpr? : Option Expr → Nat
  | none => 0
  | some e => e.subscripts

def subscriptsOfExprs : List Expr → Nat
  | [] => 0
  | e :: es => e.subscripts + subscriptsOfExprs es

end

@[simp] theorem subscriptsOfExprs_nil : subscriptsOfExprs [] = 0 := rfl

@[simp] theorem subscriptsOfExprs_cons (e : Expr) (es : List Expr) :
    subscriptsOfExprs (e :: es) = e.subscripts + subscriptsOfExprs es := rfl

@[simp] theorem subscriptsOfExprs_toList (e : Option Expr) :
    subscriptsOfExprs e.toList = subscriptsOfExpr? e := by
  cases e <;> rfl

@[simp] theorem subscriptsOfExprs_append (es es' : List Expr) :
    subscriptsOfExprs (es ++ es') = subscriptsOfExprs es + subscriptsOfExprs es' := by
  induction es with
  | nil => simp
  | cons e es ih => simp [ih, Nat.add_assoc]

/-! ## Work -/

/-- The work of splitting a tuple into declarations and an assignment, and of completing the call
that is assigned. -/
def tupleWork (op : AssignOp) (targets : List Expr) : Nat :=
  if targets.length ≤ 1 then 0 else if op = .define then 10 else 5

/-- The work of the second evaluation of the target of an update. -/
def updateWork (op : AssignOp) (targets : List Expr) : Nat :=
  if op.combines?.isSome then 10 * subscriptsOfExprs targets else 0

/-- A condition behind an `else` may need a block of its own. -/
def branchWork (stmt : Stmt) : Nat :=
  match stmt.form with
  | .cond .. => 4
  | _ => 0

mutual

/-- The work left in an expression. -/
def Expr.work : Expr → Nat
  | .ident .. | .lit .. | .type .. => 0
  | .funcLit _ _ _ ⟨stmts, _⟩ => 1 + workOfStmts stmts fun _ => 0
  | .composite _ _ elems => workOfExprs elems
  | .index _ base key => 10 + base.work + key.work
  | .keyValue _ left right | .binary _ _ left right => left.work + right.work
  | .paren _ inner | .selector _ inner _ | .typeAssert _ inner _ | .unary _ _ inner => inner.work
  | .slice _ base low high max =>
    base.work + workOfExpr? low + workOfExpr? high + workOfExpr? max
  | .call _ callee args _ => callee.work + workOfExprs args

def workOfExpr? : Option Expr → Nat
  | none => 0
  | some e => e.work

def workOfExprs : List Expr → Nat
  | [] => 0
  | e :: es => e.work + workOfExprs es

/-- The work left in a statement, when `cost` is the work of settling a return. Forms that are never
legal are not entered. -/
def Stmt.work : Stmt → (cost : NodeId → Nat) → Nat
  | ⟨_, _, .decl ⟨_, specs, _⟩⟩, _ => 4 + workOfSpecs specs
  | ⟨_, _, .expr e⟩, _ => 4 + e.work
  | ⟨_, _, .incDec e _⟩, _ => 4 + 10 * e.subscripts + e.work
  | ⟨_, _, .assign targets op values⟩, _ =>
    4 + tupleWork op targets + updateWork op targets + workOfExprs targets + workOfExprs values
  | ⟨id, _, .ret values⟩, cost => 4 + cost id + workOfExprs values
  | ⟨_, _, .block ⟨stmts, _⟩⟩, cost => 4 + workOfStmts stmts cost
  | ⟨_, _, .cond init test ⟨stmts, _⟩ otherwise⟩, cost =>
    4 + workOfHeader init cost + test.work + workOfStmts stmts cost + workOfBranch otherwise cost
  | ⟨_, _, .switch init tag clauses⟩, cost =>
    4 + workOfHeader init cost + workOfExpr? tag + workOfCases clauses cost
  | ⟨_, _, .loop init test post ⟨stmts, _⟩⟩, cost =>
    4 + workOfHeader init cost + workOfExpr? test + workOfHeader post cost + workOfStmts stmts cost
  | ⟨_, _, .range key value _ subject ⟨stmts, _⟩⟩, cost =>
    4 + workOfExpr? key + workOfExpr? value + subject.work + workOfStmts stmts cost
  | ⟨_, _, .empty⟩, _ | ⟨_, _, .jump ..⟩, _ | ⟨_, _, .labeled ..⟩, _ | ⟨_, _, .send ..⟩, _
  | ⟨_, _, .go _⟩, _ | ⟨_, _, .defer _⟩, _ | ⟨_, _, .typeSwitch ..⟩, _ | ⟨_, _, .select _⟩, _ => 4

def workOfHeader : Option Stmt → (cost : NodeId → Nat) → Nat
  | none, _ => 0
  | some stmt, cost => 5 + stmt.work cost

def workOfBranch : Option Stmt → (cost : NodeId → Nat) → Nat
  | none, _ => 0
  | some stmt, cost => branchWork stmt + stmt.work cost

def workOfStmts : List Stmt → (cost : NodeId → Nat) → Nat
  | [], _ => 0
  | stmt :: stmts, cost => stmt.work cost + workOfStmts stmts cost

def workOfCases : List CaseClause → (cost : NodeId → Nat) → Nat
  | [], _ => 0
  | ⟨none, body, _⟩ :: clauses, cost => 1 + workOfStmts body cost + workOfCases clauses cost
  | ⟨some exprs, body, _⟩ :: clauses, cost =>
    1 + workOfExprs exprs + workOfStmts body cost + workOfCases clauses cost

def workOfSpecs : List Spec → Nat
  | [] => 0
  | .value _ _ [] :: specs | .typeName .. :: specs => workOfSpecs specs
  | .value _ _ (value :: values) :: specs =>
    10 + value.work + workOfExprs values + workOfSpecs specs

end

section Lists

@[simp] theorem workOfExprs_nil : workOfExprs [] = 0 := rfl

@[simp] theorem workOfExprs_cons (e : Expr) (es : List Expr) :
    workOfExprs (e :: es) = e.work + workOfExprs es := rfl

@[simp] theorem workOfExprs_append (es es' : List Expr) :
    workOfExprs (es ++ es') = workOfExprs es + workOfExprs es' := by
  induction es with
  | nil => simp
  | cons e es ih => simp [ih, Nat.add_assoc]

theorem workOfExprs_eq_sum (es : List Expr) : workOfExprs es = (es.map Expr.work).sum := by
  induction es with
  | nil => rfl
  | cons e es ih => simp [ih]

variable (cost : NodeId → Nat)

@[simp] theorem workOfStmts_nil : workOfStmts [] cost = 0 := rfl

@[simp] theorem workOfStmts_cons (stmt : Stmt) (stmts : List Stmt) :
    workOfStmts (stmt :: stmts) cost = stmt.work cost + workOfStmts stmts cost := rfl

@[simp] theorem workOfStmts_append (stmts stmts' : List Stmt) :
    workOfStmts (stmts ++ stmts') cost = workOfStmts stmts cost + workOfStmts stmts' cost := by
  induction stmts with
  | nil => simp
  | cons stmt stmts ih => simp [ih, Nat.add_assoc]

theorem workOfStmts_eq_sum (stmts : List Stmt) :
    workOfStmts stmts cost = (stmts.map (Stmt.work · cost)).sum := by
  induction stmts with
  | nil => rfl
  | cons stmt stmts ih => simp [ih]

theorem workOfCases_cons (exprs : Option (List Expr)) (body : List Stmt) (span : Span)
    (clauses : List CaseClause) :
    workOfCases (⟨exprs, body, span⟩ :: clauses) cost =
      1 + workOfExprs (exprs.getD []) + workOfStmts body cost + workOfCases clauses cost := by
  cases exprs <;> simp [workOfCases]

end Lists

/-- The work left in the bodies of function literals. -/
def workOfBodies (bodies : List (List Stmt)) : Nat :=
  (bodies.map fun body => 1 + workOfStmts body fun _ => 0).sum

@[simp] theorem workOfBodies_nil : workOfBodies [] = 0 := rfl

@[simp] theorem workOfBodies_cons (body : List Stmt) (bodies : List (List Stmt)) :
    workOfBodies (body :: bodies) = 1 + workOfStmts body (fun _ => 0) + workOfBodies bodies := by
  simp [workOfBodies]

@[simp] theorem workOfBodies_append (bodies bodies' : List (List Stmt)) :
    workOfBodies (bodies ++ bodies') = workOfBodies bodies + workOfBodies bodies' := by
  simp [workOfBodies]

theorem workOfBodies_perm {bodies bodies'} (h : bodies.Perm bodies') :
    workOfBodies bodies = workOfBodies bodies' :=
  (h.map _).sum_nat

mutual

/-- The work in an expression is that of its subscripts and of its function literals. -/
theorem Expr.work_eq (e : Expr) : e.work = 10 * e.subscripts + workOfBodies e.bodies := by
  match e with
  | .ident .. | .lit .. | .type .. => rfl
  | .funcLit _ _ _ ⟨stmts, _⟩ => simp [Expr.work, Expr.subscripts, Expr.bodies]
  | .composite _ _ elems =>
    simp [Expr.work, Expr.subscripts, Expr.bodies, workOfExprs_eq elems]
  | .index _ left right | .keyValue _ left right | .binary _ _ left right =>
    simp only [Expr.work, Expr.subscripts, Expr.bodies, workOfBodies_append, left.work_eq,
      right.work_eq]
    omega
  | .paren _ inner | .selector _ inner _ | .typeAssert _ inner _ | .unary _ _ inner =>
    simp only [Expr.work, Expr.subscripts, Expr.bodies, inner.work_eq]
  | .slice _ base low high max =>
    simp only [Expr.work, Expr.subscripts, Expr.bodies, workOfBodies_append, base.work_eq,
      workOfExpr?_eq low, workOfExpr?_eq high, workOfExpr?_eq max]
    omega
  | .call _ callee args _ =>
    simp only [Expr.work, Expr.subscripts, Expr.bodies, workOfBodies_append, callee.work_eq,
      workOfExprs_eq args]
    omega

theorem workOfExpr?_eq (e : Option Expr) :
    workOfExpr? e = 10 * subscriptsOfExpr? e + workOfBodies (bodiesOfExpr? e) := by
  match e with
  | none => rfl
  | some e => simp only [workOfExpr?, subscriptsOfExpr?, bodiesOfExpr?, e.work_eq]

theorem workOfExprs_eq (es : List Expr) :
    workOfExprs es = 10 * subscriptsOfExprs es + workOfBodies (bodiesOfExprs es) := by
  match es with
  | [] => rfl
  | e :: es =>
    simp only [workOfExprs, subscriptsOfExprs, bodiesOfExprs, workOfBodies_append, e.work_eq,
      workOfExprs_eq es]
    omega

end

/-- The number of specifications with a value. -/
def valued (specs : List Spec) : Nat := specs.countP fun spec => !spec.values.isEmpty

theorem valued_append (specs specs' : List Spec) :
    valued (specs ++ specs') = valued specs + valued specs' := countP_append

@[simp] theorem valued_value (names : List Name) (type : Option (Located TypeExpr))
    (values : List Expr) (specs : List Spec) :
    valued (.value names type values :: specs) =
      valued specs + if values.isEmpty then 0 else 1 := by
  rw [valued, valued, countP_cons]
  cases values <;> rfl

@[simp] theorem valued_typeName (name : Name) (isAlias : Bool) (type : Located TypeExpr)
    (specs : List Spec) : valued (.typeName name isAlias type :: specs) = valued specs :=
  countP_cons_of_neg Bool.false_ne_true

theorem workOfSpecs_eq (specs : List Spec) :
    workOfSpecs specs = 10 * valued specs + workOfExprs (specs.flatMap Spec.values) := by
  induction specs with
  | nil => rfl
  | cons spec specs ih =>
    cases spec with
    | typeName => simpa [workOfSpecs, Spec.values] using ih
    | value names type values =>
      cases values with
      | nil => simpa [workOfSpecs, Spec.values] using ih
      | cons value values =>
        simp only [workOfSpecs, ih, valued_value, Spec.values, isEmpty_cons,
          flatMap_cons, workOfExprs_append, workOfExprs_cons, Bool.false_eq_true, if_false]
        omega

mutual

/-- Returns that cost less make less work. -/
theorem Stmt.work_mono (h : ∀ id, cost id ≤ cost' id) (stmt : Stmt) :
    stmt.work cost ≤ stmt.work cost' := by
  match stmt with
  | ⟨id, _, .ret values⟩ =>
    simp only [Stmt.work]
    have := h id
    omega
  | ⟨_, _, .block ⟨stmts, _⟩⟩ | ⟨_, _, .range _ _ _ _ ⟨stmts, _⟩⟩ =>
    simp only [Stmt.work]
    have := workOfStmts_mono h stmts
    omega
  | ⟨_, _, .cond init test ⟨stmts, _⟩ otherwise⟩ =>
    simp only [Stmt.work]
    have := workOfHeader_mono h init
    have := workOfStmts_mono h stmts
    have := workOfBranch_mono h otherwise
    omega
  | ⟨_, _, .switch init tag clauses⟩ =>
    simp only [Stmt.work]
    have := workOfHeader_mono h init
    have := workOfCases_mono h clauses
    omega
  | ⟨_, _, .loop init test post ⟨stmts, _⟩⟩ =>
    simp only [Stmt.work]
    have := workOfHeader_mono h init
    have := workOfHeader_mono h post
    have := workOfStmts_mono h stmts
    omega
  | ⟨_, _, .decl ⟨_, specs, _⟩⟩ => exact Nat.le_refl _
  | ⟨_, _, .expr _⟩ | ⟨_, _, .incDec ..⟩ | ⟨_, _, .assign ..⟩ | ⟨_, _, .empty⟩ | ⟨_, _, .jump ..⟩
  | ⟨_, _, .labeled ..⟩ | ⟨_, _, .send ..⟩ | ⟨_, _, .go _⟩ | ⟨_, _, .defer _⟩
  | ⟨_, _, .typeSwitch ..⟩ | ⟨_, _, .select _⟩ => exact Nat.le_refl _

theorem workOfHeader_mono (h : ∀ id, cost id ≤ cost' id)
    (stmt : Option Stmt) : workOfHeader stmt cost ≤ workOfHeader stmt cost' := by
  match stmt with
  | none => exact Nat.le_refl _
  | some stmt => exact Nat.add_le_add_left (stmt.work_mono h) 5

theorem workOfBranch_mono (h : ∀ id, cost id ≤ cost' id)
    (stmt : Option Stmt) : workOfBranch stmt cost ≤ workOfBranch stmt cost' := by
  match stmt with
  | none => exact Nat.le_refl _
  | some stmt => exact Nat.add_le_add_left (stmt.work_mono h) _

theorem workOfStmts_mono (h : ∀ id, cost id ≤ cost' id)
    (stmts : List Stmt) : workOfStmts stmts cost ≤ workOfStmts stmts cost' := by
  match stmts with
  | [] => exact Nat.le_refl _
  | stmt :: stmts => exact Nat.add_le_add (stmt.work_mono h) (workOfStmts_mono h stmts)

theorem workOfCases_mono (h : ∀ id, cost id ≤ cost' id)
    (clauses : List CaseClause) : workOfCases clauses cost ≤ workOfCases clauses cost' := by
  match clauses with
  | [] => exact Nat.le_refl _
  | ⟨exprs, body, span⟩ :: clauses =>
    rw [workOfCases_cons, workOfCases_cons]
    exact Nat.add_le_add (Nat.add_le_add_left (workOfStmts_mono h body) _)
      (workOfCases_mono h clauses)

end

theorem Stmt.four_le_work (stmt : Stmt) (cost : NodeId → Nat) : 4 ≤ stmt.work cost := by
  match stmt with
  | ⟨_, _, .decl ⟨_, _, _⟩⟩ | ⟨_, _, .block ⟨_, _⟩⟩ | ⟨_, _, .cond _ _ ⟨_, _⟩ _⟩
  | ⟨_, _, .loop _ _ _ ⟨_, _⟩⟩ | ⟨_, _, .range _ _ _ _ ⟨_, _⟩⟩ | ⟨_, _, .expr _⟩
  | ⟨_, _, .incDec ..⟩ | ⟨_, _, .assign ..⟩ | ⟨_, _, .ret _⟩ | ⟨_, _, .switch ..⟩
  | ⟨_, _, .empty⟩ | ⟨_, _, .jump ..⟩ | ⟨_, _, .labeled ..⟩ | ⟨_, _, .send ..⟩ | ⟨_, _, .go _⟩
  | ⟨_, _, .defer _⟩ | ⟨_, _, .typeSwitch ..⟩ | ⟨_, _, .select _⟩ =>
    simp only [Stmt.work]
    omega

namespace Lowering

/-! ## Taking reads out -/

section Extraction

variable {isRead : Expr → Bool} {temp : String}

/-- The subscripts of an expression are those of what is left and those of the read. -/
theorem Swaps.subscripts {e'} (h : Swaps read temp e e') :
    e'.subscripts + read.subscripts = e.subscripts := by
  induction h with
  | here => simp [Expr.subscripts]
  | _ =>
    simp only [Expr.subscripts, subscriptsOfExpr?, subscriptsOfExprs_append,
      subscriptsOfExprs_cons]
    omega

/-- So is the work. -/
theorem Swaps.work {e'} (h : Swaps read temp e e') : e'.work + read.work = e.work := by
  have hsub := h.subscripts
  rw [e'.work_eq, read.work_eq, e.work_eq, workOfBodies_perm h.bodies, workOfBodies_append]
  omega

theorem SwapsIn.subscripts {es es'} (h : SwapsIn read temp es es') :
    subscriptsOfExprs es' + read.subscripts = subscriptsOfExprs es := by
  obtain ⟨l, e, e', r, rfl, rfl, h⟩ := h
  have hsub := h.subscripts
  simp only [subscriptsOfExprs_append, subscriptsOfExprs_cons]
  omega

theorem SwapsIn.work {es es'} (h : SwapsIn read temp es es') :
    workOfExprs es' + read.work = workOfExprs es := by
  obtain ⟨l, e, e', r, rfl, rfl, h⟩ := h
  have hwork := h.work
  simp only [workOfExprs_append, workOfExprs_cons]
  omega

/-- Taking a read out of a statement takes the work of the read out. -/
theorem Extracts.work {form x} (h : Extracts isRead temp form x) (id : NodeId) (span : Span)
    (cost : NodeId → Nat) :
    Stmt.work ⟨id, span, x.rest⟩ cost + x.read.work ≤ Stmt.work ⟨id, span, form⟩ cost := by
  cases h with
  | expr h =>
    have hwork := (extract_swaps false _ h).2.work
    simp only [Extraction.map, Stmt.work]
    omega
  | incDec h =>
    obtain ⟨-, hswaps, -⟩ := extractTarget_swaps h
    have hwork := hswaps.work
    have hsub := hswaps.subscripts
    simp only [Extraction.map, Stmt.work]
    omega
  | @targets targets op _ y h =>
    have hswaps := extractTargets_swapsIn h
    have hwork := hswaps.work
    have hsub := hswaps.subscripts
    have htuple : tupleWork op y.rest = tupleWork op targets := by
      rw [tupleWork, tupleWork, hswaps.length_eq]
    have hupdate : updateWork op y.rest ≤ updateWork op targets := by
      unfold updateWork
      split <;> omega
    simp only [Extraction.map, Stmt.work]
    omega
  | values h | ret h =>
    have hwork := (extractList_swaps false _ h).2.work
    simp only [Extraction.map, Stmt.work]
    omega
  | decl h =>
    obtain ⟨-, l, names, type, values, y, r, rfl, rfl, hy⟩ := extractSpecs_swaps h
    have hswaps := (extractList_swaps false _ hy).2
    have hwork := hswaps.work
    have hempty : y.rest.isEmpty = values.isEmpty := by
      rw [Bool.eq_iff_iff, isEmpty_iff_length_eq_zero, isEmpty_iff_length_eq_zero,
        hswaps.length_eq]
    simp only [Extraction.map, Stmt.work, workOfSpecs_eq, flatMap_append, flatMap_cons,
      Spec.values, workOfExprs_append, valued_append, valued_value, hempty]
    omega
  | @cond _ body _ _ h | @range _ _ _ _ body _ h =>
    have hwork := (extract_swaps false _ h).2.work
    obtain ⟨stmts, place⟩ := body
    simp only [Extraction.map, Stmt.work]
    omega
  | switch h =>
    have hwork := (extract_swaps false _ h).2.work
    simp only [Extraction.map, Stmt.work, workOfExpr?]
    omega

end Extraction

/-! ## What the rules pay -/

/-- Only its subscripts make work in a stable expression. -/
theorem work_of_isStable (h : isStable e = true) : e.work = 10 * e.subscripts := by
  simp [e.work_eq, bodies_of_isStable e h]

section Rules

variable {env : Env} {stmt : Stmt} (cost : NodeId → Nat)

theorem workOfSpecs_varDecl (vars : List Var) (span : Span) :
    workOfSpecs (varDecl vars span).specs = 0 := by
  induction vars with
  | nil => rfl
  | cons var vars ih => exact ih

theorem Declares.work (h : Declares place stmt) : stmt.work cost = 4 := by
  obtain ⟨id, span, form⟩ := stmt
  obtain ⟨-, vars, rfl⟩ := h
  have hspecs := workOfSpecs_varDecl vars place
  simp only [varDecl, Stmt.work] at hspecs ⊢
  omega

/-- At most one declaration is put in front. -/
theorem work_of_declares {before} (h : ∀ x ∈ before, Declares place x) (hlen : before.length ≤ 1) :
    workOfStmts before cost ≤ 4 := by
  match before with
  | [] => simp
  | [x] => simp [(h x (by simp)).work cost]
  | _ :: _ :: _ => simp at hlen

@[simp] theorem work_callOf (name : String) (args : List Expr) (span : Span) :
    (Expr.callOf name args span).work = workOfExprs args := by
  simp [Expr.callOf, Expr.work]

theorem Env.ReadsFirst.work {span callSpan base key temp before}
    (h : env.ReadsFirst place span callSpan base key temp before) :
    workOfStmts before cost = 8 + base.work + key.work := by
  obtain ⟨declaration, ⟨id, span, form⟩, rfl, hdeclares, -, rfl⟩ := h
  simp only [workOfStmts_cons, workOfStmts_nil, hdeclares.work cost, Stmt.work, Env.readCall,
    work_callOf, workOfExprs_cons, workOfExprs_nil, Expr.address, Expr.work]
  omega

theorem Named.work {target target'} (h : Named target target') : target'.work = target.work := by
  rcases h with rfl | ⟨hblank, name, rfl⟩
  · rfl
  · cases target with
    | ident => rfl
    | _ => simp [Expr.isBlank, Expr.name?] at hblank

theorem work_of_named {targets targets'} (h : Forall₂ Named targets targets') :
    workOfExprs targets' = workOfExprs targets := by
  induction h with
  | nil => rfl
  | cons htarget _ ih => simp [htarget.work, ih]

/-- The work of the target at a position, if there is one. -/
def workAt (targets : List Expr) (position : Nat) : Nat := workOfExprs targets[position]?.toList

theorem sum_workAt (targets : List Expr) :
    ((range targets.length).map (workAt targets)).sum = workOfExprs targets := by
  induction targets with
  | nil => rfl
  | cons target targets ih =>
    have hzero : workAt (target :: targets) 0 = target.work := by simp [workAt]
    have hsucc : workAt (target :: targets) ∘ Nat.succ = workAt targets := rfl
    rw [length_cons, range_succ_eq_map, map_cons, map_map, sum_cons, hzero,
      hsucc, ih, workOfExprs_cons]

theorem work_of_addresses (targets : List Expr) (positions : List Nat) :
    workOfExprs (positions.filterMap fun position => targets[position]?.map Expr.address) =
      (positions.map (workAt targets)).sum := by
  induction positions with
  | nil => rfl
  | cons position positions ih =>
    cases htarget : targets[position]? <;> simp [workAt, htarget, ih, Expr.address, Expr.work]

/-- Every target of a completed call stands in it once at most. -/
theorem completedForm_work {shape targets} (hshape : ∀ arity ∈ shape, 0 < arity)
    (hcount : valueCount shape = targets.length) (id : NodeId) (place span : Span) (callee : Expr)
    (args : List Expr) (spread : Bool) :
    Stmt.work ⟨id, place, completedForm shape targets span callee args spread⟩ cost ≤
      4 + workOfExprs targets + (Expr.call span callee args spread).work := by
  have hall : ((keptPositions shape).map (workAt targets)).sum +
      ((outPositions shape).map (workAt targets)).sum = workOfExprs targets := by
    rw [← sum_append, ← map_append, ← sum_workAt, ← hcount]
    exact ((kept_append_out_perm hshape).map _).sum_nat
  have houts := work_of_addresses targets (outPositions shape)
  unfold completedForm
  split
  · rename_i first hfirst
    split at hfirst
    · rename_i hstays
      have hhead := (Option.filter_eq_some_iff.1 hfirst).1
      have hkept : ((keptPositions shape).map (workAt targets)).sum = first.work := by
        rw [head?_eq_getElem?] at hhead
        simp [keptPositions, hstays, workAt, hhead]
      simp only [Stmt.work, tupleWork, updateWork, AssignOp.combines?, Expr.work,
        workOfExprs_cons, workOfExprs_nil, workOfExprs_append, length_singleton]
      simp
      omega
    · contradiction
  · simp only [Stmt.work, Expr.work, workOfExprs_append]
    omega

theorem readForm_work (base key target : Expr) (flag? : Option Expr) (id : NodeId)
    (place span : Span) :
    Stmt.work ⟨id, place, env.readForm base key target flag? span⟩ cost =
      4 + base.work + key.work + target.work + workOfExprs flag?.toList := by
  cases flag? with
  | none =>
    simp only [Env.readForm, Env.readCall, Stmt.work, work_callOf, workOfExprs_cons,
      workOfExprs_nil, Expr.address, Expr.work, Option.toList_none]
    omega
  | some flag =>
    simp only [Env.readForm, Env.readCall, Stmt.work, work_callOf, workOfExprs_cons,
      workOfExprs_nil, Expr.address, Expr.work, Option.toList_some, tupleWork, updateWork,
      AssignOp.combines?, length_singleton]
    simp
    omega

theorem elementUpdate?_work {target value op}
    (h : elementUpdate? env stmt = some (target, op, value)) :
    4 + 10 * target.subscripts + target.work + value.work ≤ stmt.work cost := by
  obtain ⟨id, span, form⟩ := stmt
  unfold elementUpdate? at h
  split at h
  · rename_i e increments hform
    obtain rfl : form = _ := hform
    split at h
    · cases h
      simp [Stmt.work, Expr.work]
    · contradiction
  · rename_i target' op' value' hform
    obtain rfl : form = _ := hform
    obtain ⟨combined, hop, h⟩ := Option.bind_eq_some_iff.1 h
    split at h
    · cases h
      simp only [Stmt.work, tupleWork, updateWork, hop, Option.isSome_some, if_true,
        subscriptsOfExprs_cons, subscriptsOfExprs_nil, workOfExprs_cons, workOfExprs_nil]
      omega
    · contradiction
  · contradiction

/-- What a rule leaves is less work than the statement was. -/
theorem Rewrites.work {r} (h : Rewrites env stmt r) (henv : env.Positive) :
    workOfStmts r.before cost + Stmt.work ⟨stmt.id, stmt.span, r.form⟩ cost + 1 ≤
      stmt.work cost := by
  cases h with
  | write hform =>
    obtain ⟨id, span, form⟩ := stmt
    obtain rfl : form = _ := hform
    simp only [Stmt.work, Env.writeCall, work_callOf, workOfStmts_nil, workOfExprs_cons,
      workOfExprs_nil, Expr.work]
    omega
  | @read _ _ _ _ _ target _ second? hform _ _ hnamed hbefore hlen =>
    obtain ⟨id, place, form⟩ := stmt
    obtain rfl : form = _ := hform
    have hfront := work_of_declares cost hbefore hlen
    have hflag : workOfExprs (second?.filter fun target => !target.isBlank).toList ≤
        workOfExprs second?.toList := by
      cases second? with
      | none => simp
      | some second =>
        rw [Option.filter_some]
        split <;> simp
    rw [readForm_work, hnamed.work]
    simp only [Stmt.work, Expr.work, workOfExprs_cons, workOfExprs_nil]
    omega
  | define hform hcount hnamed hbefore hlen =>
    obtain ⟨id, place, form⟩ := stmt
    obtain rfl : form = _ := hform
    have hfront := work_of_declares cost hbefore hlen
    have hlength := hnamed.length_eq
    simp only [Stmt.work, tupleWork, updateWork, AssignOp.combines?, work_of_named hnamed,
      ← hlength, if_neg (Nat.not_le.2 hcount)]
    simp
    omega
  | @complete targets span callee args spread _ _ hform hcount hnamed hbefore hlen =>
    obtain ⟨id, place, form⟩ := stmt
    obtain rfl : form = _ := hform
    have hfront := work_of_declares cost hbefore hlen
    have hlength := hnamed.length_eq
    obtain ⟨hvalues, hshape⟩ := henv.callShape (.call span callee args spread) targets.length
    have hcall := completedForm_work cost hshape (hvalues.trans hlength) id place span callee args
      spread
    rw [work_of_named hnamed] at hcall
    have htuple : tupleWork .assign targets = 5 := by
      rw [tupleWork, if_neg (Nat.not_le.2 hcount)]
      rfl
    have hself :
        Stmt.work ⟨id, place, .assign targets .assign [.call span callee args spread]⟩ cost =
        4 + 5 + 0 + workOfExprs targets + ((Expr.call span callee args spread).work + 0) := by
      rw [← htuple]
      rfl
    dsimp only
    omega
  | @update _ base key _ _ _ _ hupdate hstable hreads =>
    have hself := elementUpdate?_work cost hupdate
    have hfront := hreads.work cost
    rw [work_of_isStable hstable] at hself
    have hstable : isStable base = true ∧ isStable key = true := by
      simpa [isStable] using hstable
    rw [work_of_isStable hstable.1, work_of_isStable hstable.2] at hfront
    simp only [Stmt.work, Env.writeCall, work_callOf, workOfExprs_cons, workOfExprs_nil, Expr.work,
      work_of_isStable hstable.1, work_of_isStable hstable.2]
    simp only [Expr.subscripts] at hself
    omega
  | hoist hextracts hread hreads =>
    obtain ⟨id, place, form⟩ := stmt
    have hrest := hextracts.work id place cost
    have hfront := hreads.work cost
    rw [hread, Expr.work] at hrest
    dsimp only at hrest ⊢
    omega

end Rules

end Lowering

end ScriptLowering
