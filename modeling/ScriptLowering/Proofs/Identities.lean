import ScriptLowering.Proofs.Decrease
import ScriptLowering.Proofs.Scanning

/-!
# Identities of statements

`Stmt.all` lists the statements of a tree at any depth, those in function literals too. In a parsed
file their identities are pairwise distinct and below `nextId`. The walk keeps it so: whatever
moves, no statement comes to stand in two places, and a statement that is made takes an identity
that was not given out before. For a fixed identity this is one inequality between numbers of
statements (`Walks.derives`), and all that is said about whole files follows from it.
-/

namespace ScriptLowering

open List

variable {file : SourceFile} {id : NodeId} {form : StmtForm}

/-! ## All statements of a tree -/

mutual

/-- The statements in the function literals of an expression, at any depth. Written types are left
out. -/
def Expr.all : Expr → List Stmt
  | .ident .. | .lit .. | .type .. => []
  | .funcLit _ _ _ ⟨stmts, _⟩ => allOfStmts stmts
  | .composite _ _ elems => allOfExprs elems
  | .keyValue _ left right | .index _ left right | .binary _ _ left right => left.all ++ right.all
  | .paren _ inner | .selector _ inner _ | .typeAssert _ inner _ | .unary _ _ inner => inner.all
  | .slice _ base low high max =>
    base.all ++ allOfExpr? low ++ allOfExpr? high ++ allOfExpr? max
  | .call _ callee args _ => callee.all ++ allOfExprs args

def allOfExpr? : Option Expr → List Stmt
  | none => []
  | some e => e.all

def allOfExprs : List Expr → List Stmt
  | [] => []
  | e :: es => e.all ++ allOfExprs es

/-- The statements inside a statement, at any depth, and the statement itself behind them. -/
def Stmt.all : Stmt → List Stmt
  | ⟨id, span, form⟩ => form.all ++ [⟨id, span, form⟩]

/-- The statements inside a form, at any depth. -/
def StmtForm.all : StmtForm → List Stmt
  | .decl ⟨_, specs, _⟩ => allOfSpecs specs
  | .empty | .jump .. => []
  | .labeled _ stmt => stmt.all
  | .expr e | .incDec e _ | .go e | .defer e => e.all
  | .send chan value => chan.all ++ value.all
  | .assign targets _ values => allOfExprs targets ++ allOfExprs values
  | .ret values => allOfExprs values
  | .block ⟨stmts, _⟩ => allOfStmts stmts
  | .cond init test ⟨stmts, _⟩ otherwise =>
    allOfStmt? init ++ test.all ++ allOfStmts stmts ++ allOfStmt? otherwise
  | .switch init tag clauses => allOfStmt? init ++ allOfExpr? tag ++ allOfCases clauses
  | .typeSwitch init guard clauses => allOfStmt? init ++ guard.all ++ allOfCases clauses
  | .select clauses => allOfComms clauses
  | .loop init test post ⟨stmts, _⟩ =>
    allOfStmt? init ++ allOfExpr? test ++ allOfStmt? post ++ allOfStmts stmts
  | .range key value _ subject ⟨stmts, _⟩ =>
    allOfExpr? key ++ allOfExpr? value ++ subject.all ++ allOfStmts stmts

def allOfStmt? : Option Stmt → List Stmt
  | none => []
  | some stmt => stmt.all

def allOfStmts : List Stmt → List Stmt
  | [] => []
  | stmt :: stmts => stmt.all ++ allOfStmts stmts

def allOfCases : List CaseClause → List Stmt
  | [] => []
  | ⟨none, body, _⟩ :: clauses => allOfStmts body ++ allOfCases clauses
  | ⟨some exprs, body, _⟩ :: clauses => allOfExprs exprs ++ allOfStmts body ++ allOfCases clauses

def allOfComms : List CommClause → List Stmt
  | [] => []
  | ⟨comm, body, _⟩ :: clauses => allOfStmt? comm ++ allOfStmts body ++ allOfComms clauses

def allOfSpecs : List Spec → List Stmt
  | [] => []
  | .value _ _ values :: specs => allOfExprs values ++ allOfSpecs specs
  | .typeName .. :: specs => allOfSpecs specs

end

def Decl.all : Decl → List Stmt
  | .func decl => allOfStmts ((decl.body.map Block.stmts).getD [])
  | .gen decl => allOfSpecs decl.specs

namespace SourceFile

/-- The statements of a file, at any depth. -/
def all (file : SourceFile) : List Stmt := file.decls.flatMap Decl.all

/-- The identities of the statements of a file. -/
def ids (file : SourceFile) : List NodeId := file.all.map Stmt.id

/-- The identities of a file are sound: no two statements share one, and the next one to be given
out, and all behind it, are free. -/
structure Identified (file : SourceFile) : Prop where
  distinct : file.ids.Nodup
  below : ∀ id ∈ file.ids, id < file.nextId

/-- The identities of the statements of a file, as the 32-bit numbers they are stored as. -/
def words (file : SourceFile) : List UInt32 := file.ids.map UInt32.ofNat

/-- What `Identified` says, about the stored numbers. -/
structure IdentifiedWords (file : SourceFile) : Prop where
  distinct : file.words.Nodup
  below : ∀ id ∈ file.words, id < UInt32.ofNat file.nextId

end SourceFile

/-! ## Parsed files -/

namespace TreeNode

/-- The statements in the tree of a node, at any depth. -/
def all : TreeNode → List Stmt
  | .expr e => e.all
  | .block body => allOfStmts body.stmts
  | .stmt x => x.all
  | .caseClause x => allOfExprs x.labels ++ allOfStmts x.body
  | .commClause x => allOfStmt? x.comm ++ allOfStmts x.body
  | .decl x => x.all
  | _ => []

@[simp] theorem allOfExprs_nodes (es : List Expr) : (es.map expr).flatMap all = allOfExprs es := by
  induction es with
  | nil => rfl
  | cons e es ih => rw [map_cons, flatMap_cons, ih]; rfl

@[simp] theorem allOfStmts_nodes (xs : List Stmt) : (xs.map stmt).flatMap all = allOfStmts xs := by
  induction xs with
  | nil => rfl
  | cons x xs ih => rw [map_cons, flatMap_cons, ih]; rfl

@[simp] theorem allOfCases_nodes (clauses : List CaseClause) :
    (clauses.map caseClause).flatMap all = allOfCases clauses := by
  induction clauses with
  | nil => rfl
  | cons clause clauses ih =>
    obtain ⟨exprs, body, span⟩ := clause
    rw [map_cons, flatMap_cons, ih]
    cases exprs <;> rfl

@[simp] theorem allOfComms_nodes (clauses : List CommClause) :
    (clauses.map commClause).flatMap all = allOfComms clauses := by
  induction clauses with
  | nil => rfl
  | cons clause clauses ih =>
    obtain ⟨comm, body, span⟩ := clause
    rw [map_cons, flatMap_cons, ih]
    rfl

@[simp] theorem allOfSpecs_nodes (specs : List Spec) :
    (specs.flatMap Spec.treeNodes).flatMap all = allOfSpecs specs := by
  induction specs with
  | nil => rfl
  | cons spec specs ih =>
    rw [flatMap_cons, flatMap_append, ih]
    cases spec with
    | value names type values =>
      have hname : ∀ node ∈ names.map name ++ type.toList.map TreeNode.type, node.all = [] := by
        simp only [forall_mem_append, forall_mem_map]
        exact ⟨fun _ _ => rfl, fun _ _ => rfl⟩
      rw [Spec.treeNodes, flatMap_append, flatMap_eq_nil_iff.2 hname, allOfExprs_nodes]
      rfl
    | typeName => rfl

theorem allOfExpr?_nodes (e : Option Expr) : allOfExpr? e = (e.toList.map expr).flatMap all := by
  cases e <;> simp [allOfExpr?, all]

theorem allOfStmt?_nodes (x : Option Stmt) : allOfStmt? x = (x.toList.map stmt).flatMap all := by
  cases x <;> simp [allOfStmt?, all]

/-- The statements in a tree are those below its children, and the node itself. -/
theorem all_sublist (node : TreeNode) :
    node.all.Sublist (node.children.flatMap all ++ node.self) := by
  cases node with
  | name | type | item => exact nil_sublist _
  | block body => simp [children, self, all]
  | caseClause clause => simp [children, self, all, CaseClause.labels]
  | commClause clause => simp [children, self, all, allOfStmt?_nodes]
  | stmt x =>
    obtain ⟨id, span, form⟩ := x
    refine Sublist.append_right ?_ _
    cases form with
    | decl decl =>
      cases decl
      simp [children, StmtForm.treeNodes, StmtForm.all, all, Decl.all]
    | block body | cond _ _ body _ | loop _ _ _ body | range _ _ _ _ body =>
      cases body
      simp [children, StmtForm.treeNodes, StmtForm.all, all, allOfExpr?_nodes, allOfStmt?_nodes]
    | _ =>
      simp [children, StmtForm.treeNodes, StmtForm.all, all, allOfExpr?_nodes, allOfStmt?_nodes]
  | decl x =>
    cases x with
    | gen decl => simp [children, self, all, Decl.all, Decl.treeNodes]
    | func decl =>
      rw [children, Decl.treeNodes, flatMap_append]
      refine Sublist.trans ?_ ((sublist_append_right _ _).trans
        (sublist_append_left _ _))
      cases hbody : decl.body <;> simp [all, Decl.all, hbody, allOfStmts]
  | expr e =>
    cases e with
    | funcLit span params results body =>
      cases body
      simp [children, self, all, Expr.all, Expr.treeNodes]
    | _ => simp [children, self, all, Expr.all, Expr.treeNodes, allOfExpr?_nodes]

end TreeNode

open Grammar

/-- The identities of a parsed file are sound. -/
theorem SourceFile.identified_ofSource {options index source}
    (h : SourceFile.ofSource options index source = .ok file) : file.Identified := by
  obtain ⟨a, b, hb, hdecls⟩ := SourceFile.ofSource_placed h
  have hascends : Ascends file.all a.id b.id := by
    have hnodes := hdecls.ascends TreeNode.all_sublist
    rwa [flatMap_map] at hnodes
  refine ⟨hascends.nodup, ?_⟩
  intro id hid
  obtain ⟨x, hx, rfl⟩ := mem_map.1 hid
  exact hb ▸ (hascends.bounds x hx).2

/-! ## Statements in function literals and outside -/

/-- The statements of several bodies, at any depth. -/
def allOfBodies (bodies : List (List Stmt)) : List Stmt := bodies.flatMap allOfStmts

theorem allOfBodies_append (bodies bodies' : List (List Stmt)) :
    allOfBodies (bodies ++ bodies') = allOfBodies bodies ++ allOfBodies bodies' :=
  flatMap_append

mutual

/-- The statements in an expression are those of the function literals in it. -/
theorem Expr.all_eq (e : Expr) : e.all = allOfBodies e.bodies := by
  match e with
  | .ident .. | .lit .. | .type .. => rfl
  | .funcLit _ _ _ ⟨stmts, _⟩ => simp [Expr.all, Expr.bodies, allOfBodies]
  | .composite _ _ elems => exact allOfExprs_eq elems
  | .paren _ inner | .selector _ inner _ | .typeAssert _ inner _ | .unary _ _ inner =>
    have hinner := inner.all_eq
    exact hinner
  | .keyValue _ left right | .index _ left right | .binary _ _ left right =>
    simp only [Expr.all, Expr.bodies, allOfBodies_append, left.all_eq, right.all_eq]
  | .slice _ base low high max =>
    simp only [Expr.all, Expr.bodies, allOfBodies_append, base.all_eq, allOfExpr?_eq low,
      allOfExpr?_eq high, allOfExpr?_eq max]
  | .call _ callee args _ =>
    simp only [Expr.all, Expr.bodies, allOfBodies_append, callee.all_eq, allOfExprs_eq args]

theorem allOfExpr?_eq (e : Option Expr) : allOfExpr? e = allOfBodies (bodiesOfExpr? e) := by
  match e with
  | none => rfl
  | some e => exact e.all_eq

theorem allOfExprs_eq (es : List Expr) : allOfExprs es = allOfBodies (bodiesOfExprs es) := by
  match es with
  | [] => rfl
  | e :: es =>
    simp only [allOfExprs, bodiesOfExprs, allOfBodies_append, e.all_eq, allOfExprs_eq es]

end

theorem allOfSpecs_eq (specs : List Spec) :
    allOfSpecs specs = allOfBodies (bodiesOfExprs (specs.flatMap Spec.values)) := by
  induction specs with
  | nil => rfl
  | cons spec specs ih =>
    cases spec with
    | value names type values =>
      rw [allOfSpecs, flatMap_cons, bodiesOfExprs_append, allOfBodies_append, ih,
        allOfExprs_eq]
      rfl
    | typeName name isAlias type => exact ih

theorem allOfStmts_append (xs ys : List Stmt) :
    allOfStmts (xs ++ ys) = allOfStmts xs ++ allOfStmts ys := by
  induction xs with
  | nil => rfl
  | cons x xs ih => simp only [cons_append, allOfStmts, ih, append_assoc]

theorem allOfCases_cons (exprs : Option (List Expr)) (body : List Stmt) (span : Span)
    (clauses : List CaseClause) :
    allOfCases (⟨exprs, body, span⟩ :: clauses) =
      allOfExprs (exprs.getD []) ++ allOfStmts body ++ allOfCases clauses := by
  cases exprs <;> rfl

namespace Lowering

/-! ## Counting over a tree -/

/-- The sum of `f` over the statements. -/
def tally (f : Stmt → Nat) (xs : List Stmt) : Nat := (xs.map f).sum

section Tally

variable {f : Stmt → Nat} {xs ys : List Stmt}

@[simp] theorem tally_nil : tally f [] = 0 := rfl

@[simp] theorem tally_cons {x} : tally f (x :: xs) = f x + tally f xs := by simp [tally]

@[simp] theorem tally_append : tally f (xs ++ ys) = tally f xs + tally f ys := by simp [tally]

theorem tally_perm (h : xs.Perm ys) : tally f xs = tally f ys := (h.map f).sum_nat

theorem tally_allOfBodies_perm {bodies bodies'} (h : bodies.Perm bodies') :
    tally f (allOfBodies bodies) = tally f (allOfBodies bodies') :=
  tally_perm (h.flatMap_right _)

theorem tally_allOfCases (clauses : List CaseClause) :
    tally f (allOfCases clauses) =
      tally f (allOfBodies (bodiesOfExprs (clauses.flatMap CaseClause.labels))) +
        tally f (allOfStmts (clauses.flatMap (·.body))) := by
  induction clauses with
  | nil => rfl
  | cons clause clauses ih =>
    obtain ⟨exprs, body, span⟩ := clause
    simp only [allOfCases_cons, tally_append, ih, flatMap_cons, allOfStmts_append,
      CaseClause.labels, bodiesOfExprs_append, allOfBodies_append, allOfExprs_eq]
    omega

theorem tally_allOfComms (clauses : List CommClause) :
    tally f (allOfComms clauses) =
      tally f (allOfStmts (clauses.flatMap fun clause => clause.comm.toList ++ clause.body)) := by
  induction clauses with
  | nil => rfl
  | cons clause clauses ih =>
    obtain ⟨comm, body, span⟩ := clause
    cases comm <;>
      simp [allOfComms, allOfStmt?, allOfStmts, allOfStmts_append, ih]

theorem allOfStmts_toList (x : Option Stmt) : allOfStmts x.toList = allOfStmt? x := by
  cases x <;> simp [allOfStmt?, allOfStmts]

/-- What stands in a form stands in its function literals or directly in it. -/
theorem tally_form (form : StmtForm) :
    tally f form.all = tally f (allOfBodies form.bodies) + tally f (allOfStmts form.inner) := by
  cases form with
  | decl decl =>
    obtain ⟨keyword, specs, span⟩ := decl
    simp [StmtForm.all, StmtForm.bodies, StmtForm.exprs, StmtForm.inner, allOfSpecs_eq,
      allOfStmts]
  | empty | jump => rfl
  | labeled label stmt => simp [StmtForm.all, StmtForm.inner, allOfStmts, StmtForm.bodies,
      StmtForm.exprs, bodiesOfExprs, allOfBodies]
  | expr e | incDec e increments | go e | defer e =>
    simp [StmtForm.all, StmtForm.bodies, StmtForm.exprs, StmtForm.inner, bodiesOfExprs, e.all_eq,
      allOfStmts]
  | send chan value =>
    simp [StmtForm.all, StmtForm.bodies, StmtForm.exprs, StmtForm.inner, bodiesOfExprs,
      allOfBodies_append, chan.all_eq, value.all_eq, allOfStmts]
  | assign targets op values =>
    simp [StmtForm.all, StmtForm.inner, allOfBodies_append, allOfExprs_eq, allOfStmts]
  | ret values => simp [StmtForm.all, StmtForm.inner, allOfExprs_eq, allOfStmts]
  | block body =>
    obtain ⟨stmts, place⟩ := body
    simp [StmtForm.all, StmtForm.inner, allOfBodies]
  | cond init test body otherwise =>
    obtain ⟨stmts, place⟩ := body
    simp only [StmtForm.all, StmtForm.inner, bodies_cond, tally_append, allOfStmts_append,
      allOfStmts_toList, test.all_eq]
    omega
  | switch init tag clauses =>
    simp only [StmtForm.all, StmtForm.inner, bodies_switch, tally_append, allOfStmts_append,
      allOfBodies_append, allOfStmts_toList, allOfExpr?_eq, tally_allOfCases]
    omega
  | typeSwitch init guard clauses =>
    simp only [StmtForm.all, StmtForm.inner, StmtForm.bodies, StmtForm.exprs, tally_append,
      allOfStmts_append, allOfStmts, allOfStmts_toList, tally_allOfCases]
    omega
  | select clauses =>
    simp [StmtForm.all, StmtForm.inner, StmtForm.bodies, StmtForm.exprs, bodiesOfExprs,
      allOfBodies, tally_allOfComms]
  | loop init test post body =>
    obtain ⟨stmts, place⟩ := body
    simp only [StmtForm.all, StmtForm.inner, bodies_loop, tally_append, allOfStmts_append,
      allOfStmts_toList, allOfExpr?_eq]
    omega
  | range key value defines subject body =>
    obtain ⟨stmts, place⟩ := body
    simp only [StmtForm.all, StmtForm.inner, bodies_range, tally_append, allOfBodies_append,
      allOfExpr?_eq, subject.all_eq]

theorem tally_stmt (x : Stmt) :
    tally f x.all =
      tally f (allOfBodies x.form.bodies) + tally f (allOfStmts x.form.inner) + f x := by
  obtain ⟨id, span, form⟩ := x
  simp [Stmt.all, tally_form]

/-- Statements that hold no others. -/
theorem tally_of_inner (h : ∀ x ∈ xs, x.form.inner = []) :
    tally f (allOfStmts xs) = tally f (allOfBodies (bodiesOfStmts xs)) + tally f xs := by
  induction xs with
  | nil => rfl
  | cons x xs ih =>
    obtain ⟨hx, hxs⟩ := forall_mem_cons.1 h
    have hbodies : bodiesOfStmts (x :: xs) = x.form.bodies ++ bodiesOfStmts xs := rfl
    simp only [allOfStmts, tally_append, tally_stmt, hx, ih hxs, hbodies, allOfBodies_append,
      tally_cons, tally_nil]
    omega

theorem allOfStmts_eq : allOfStmts = flatMap Stmt.all := by
  funext xs
  induction xs with
  | nil => rfl
  | cons x xs ih => rw [allOfStmts, ih, flatMap_cons]

theorem tally_eq_zero : tally f xs = 0 ↔ ∀ x ∈ xs, f x = 0 := by
  induction xs with
  | nil => simp
  | cons x xs ih => simp [ih]

/-- The statements directly in a statement, in function literals or outside. -/
def parts (x : Stmt) : List Stmt := x.form.bodies.flatten ++ x.form.inner

theorem tally_parts (x : Stmt) : tally f x.all = tally f ((parts x).flatMap Stmt.all) + f x := by
  simp [tally_stmt, parts, allOfBodies, allOfStmts_eq, ← flatMap_id, flatMap_assoc]

theorem tally_le_of_part {x y} (h : y ∈ parts x) : tally f y.all + f x ≤ tally f x.all := by
  obtain ⟨front, rest, hparts⟩ := append_of_mem h
  simp only [tally_parts x, hparts, flatMap_append, flatMap_cons, tally_append]
  omega

/-- Nothing is counted in a tree exactly when no statement in it counts. -/
theorem tally_all_eq_zero (x : Stmt) :
    tally f x.all = 0 ↔ ∀ literal y, Inside literal x y → f y = 0 := by
  constructor
  · intro h literal y hy
    induction hy with
    | self =>
      rw [tally_parts] at h
      omega
    | part hz _ ih =>
      have hle := tally_le_of_part (f := f) (mem_append_right _ hz)
      exact ih (by omega)
    | body hbody hz _ ih =>
      have hle := tally_le_of_part (f := f) (mem_append_left _ (mem_flatten.2 ⟨_, hbody, hz⟩))
      exact ih (by omega)
  · intro h
    have hparts (y) (hy : y ∈ parts x) : tally f y.all = 0 := by
      refine (tally_all_eq_zero y).2 fun literal z hz => ?_
      rcases mem_append.1 hy with hy | hy
      · obtain ⟨body, hbody, hy⟩ := mem_flatten.1 hy
        exact h _ z (.body hbody hy hz)
      · exact h _ z (.part hy hz)
    rw [tally_parts, h false x .self, Nat.add_zero, tally_eq_zero]
    intro z hz
    obtain ⟨y, hy, hz⟩ := mem_flatMap.1 hz
    exact tally_eq_zero.1 (hparts y hy) z hz
termination_by tally (fun _ => 1) x.all
decreasing_by exact tally_le_of_part (f := fun _ => 1) hy

/-- A part that is one statement, and the other part, are what was divided. -/
theorem tally_of_partition {p x} (h : xs.partition p = ([x], ys)) :
    tally f (allOfStmts xs) = tally f x.all + tally f (allOfStmts ys) := by
  rw [allOfStmts_eq, ← tally_perm ((perm_of_partition h).flatMap_right Stmt.all), flatMap_cons,
    tally_append]

end Tally

/-! ## Counting through a walk -/

/-- A count over single statements that a walk raises only by what it takes from a supply. The
supply is numbered, and a state shows how far it is used up. -/
structure Ledger where
  weight : Stmt → Nat
  clock : State → Nat
  supply : Nat → Nat → Nat

/-- `ys` counts no more than `xs` and what was taken from the supply meanwhile. -/
structure Ledger.Covers (ledger : Ledger) (xs ys : List Stmt) (s s' : State) : Prop where
  grows : ledger.clock s ≤ ledger.clock s'
  count : tally ledger.weight ys ≤
    tally ledger.weight xs + ledger.supply (ledger.clock s) (ledger.clock s')

/-- The form holds statements, and no expression that a variable is defined by. -/
def isCompound : StmtForm → Bool
  | .block _ | .cond .. | .switch .. | .loop .. => true
  | _ => false

/-- Every step keeps to the ledger, not counting what stands inside the statements. -/
structure Ledger.Sound (ledger : Ledger) (env : Env) : Prop where
  add : ∀ {low mid high}, low ≤ mid → mid ≤ high →
    ledger.supply low mid + ledger.supply mid high = ledger.supply low high
  block : ∀ s span body, ledger.Covers [] [⟨s.nextId, span, .block body⟩] s
    { s with nextId := s.nextId + 1 }
  compound : ∀ {form form'} id span, isCompound form = true → isCompound form' = true →
    (form'.hasStuckPost = true → form.hasStuckPost = true) →
    ledger.weight ⟨id, span, form'⟩ ≤ ledger.weight ⟨id, span, form⟩
  range : ∀ {lowerBody key key' value value' s s₁ s₂} id span defines subject subject' body body',
    lowerExpr? env lowerBody key s = .ok (key', s₁) →
    lowerExpr? env lowerBody value s₁ = .ok (value', s₂) →
    ledger.weight ⟨id, span, .range key' value' defines subject' body'⟩ ≤
      ledger.weight ⟨id, span, .range key value defines subject body⟩
  plain : ∀ {lowerBody form form' s s'} id span, LowersPlain env lowerBody form form' s s' →
    ledger.weight ⟨id, span, form'⟩ ≤ ledger.weight ⟨id, span, form⟩
  split : ∀ {stmt names type value span form} s,
    stmt.form = .decl ⟨.var, [.value names type [value]], span⟩ → Divided names stmt.span form →
    ledger.Covers [stmt] [⟨stmt.id, stmt.span, form⟩, ⟨s.nextId, stmt.span,
      .assign (names.map fun name => .ident name.span name.val) .assign [value]⟩] s
      { s with nextId := s.nextId + 1 }
  rewrites : ∀ {stmt r s s'}, Rewrites env stmt r → Effects env stmt r s s' →
    ledger.Covers [stmt] (r.before ++ [⟨stmt.id, stmt.span, r.form⟩]) s s'
  settles : ∀ {plan stmt new s s'}, Settles env plan stmt s new s' → ledger.Covers [stmt] new s s'

/-- The statements that a task is given, at any depth. -/
def Task.input : Task → List Stmt
  | .seq _ xs _ | .each _ xs _ => allOfStmts xs
  | .stmt _ x _ => x.all
  | .header _ x _ | .branch _ x _ => allOfStmt? x
  | .arms _ clauses _ => allOfCases clauses
  | .bodies bs _ => allOfBodies bs

/-- The statements that a task leaves, at any depth. -/
def Task.output : Task → List Stmt
  | .seq _ _ ys | .each _ _ ys => allOfStmts ys
  | .stmt _ _ y => y.all
  | .header _ _ y | .branch _ _ y => allOfStmt? y
  | .arms _ _ clauses => allOfCases clauses
  | .bodies _ bs => allOfBodies bs

namespace Ledger

section Steps

variable {ledger : Ledger} {env : Env} {stmt : Stmt} {s s₁ s' : State}
  {xs ys xs' ys' zs : List Stmt}

theorem Covers.refl (xs : List Stmt) (s : State) : ledger.Covers xs xs s s :=
  ⟨Nat.le_refl _, Nat.le_add_right _ _⟩

variable (sound : ledger.Sound env)
include sound

theorem Covers.trans (h : ledger.Covers xs ys s s₁) (h' : ledger.Covers ys zs s₁ s') :
    ledger.Covers xs zs s s' where
  grows := Nat.le_trans h.grows h'.grows
  count := by
    have hfirst := h.count
    have hsecond := h'.count
    have hsupply := sound.add h.grows h'.grows
    omega

/-- Two steps at different places, one after the other. -/
theorem Covers.append (h : ledger.Covers xs ys s s₁) (h' : ledger.Covers xs' ys' s₁ s') :
    ledger.Covers (xs ++ xs') (ys ++ ys') s s' where
  grows := Nat.le_trans h.grows h'.grows
  count := by
    have hfirst := h.count
    have hsecond := h'.count
    have hsupply := sound.add h.grows h'.grows
    rw [tally_append, tally_append]
    omega

/-- The initializer of a header is moved, and the block around it is new. -/
theorem covers_withoutInit {init inner} (s : State)
    (h : stmt.form.withoutInit = some (init, inner)) :
    ledger.Covers stmt.all (Stmt.all ⟨s.nextId, stmt.span,
      .block ⟨[init, ⟨stmt.id, stmt.span, inner⟩], stmt.span⟩⟩) s
      { s with nextId := s.nextId + 1 } where
  grows := (sound.block s stmt.span ⟨[], stmt.span⟩).grows
  count := by
    have hblock := (sound.block s stmt.span
      ⟨[init, ⟨stmt.id, stmt.span, inner⟩], stmt.span⟩).count
    have hcompound : isCompound stmt.form = true ∧ isCompound inner = true := by
      obtain ⟨id, span, form⟩ := stmt
      cases StmtForm.opens h <;> exact ⟨rfl, rfl⟩
    have hweight : ledger.weight ⟨stmt.id, stmt.span, inner⟩ ≤ ledger.weight stmt := by
      obtain ⟨id, span, form⟩ := stmt
      exact sound.compound _ _ hcompound.1 hcompound.2 (withoutInit_hasStuckPost h).symm.trans
    simp only [tally_stmt stmt, withoutInit_inner h, Stmt.all, StmtForm.all, allOfStmts,
      tally_append, tally_cons, tally_nil, tally_form, withoutInit_bodies h] at hblock ⊢
    omega

/-- A rule leaves the statements inside where they are, and what it puts in front holds none. -/
theorem covers_rewrites {r} (h : Rewrites env stmt r) (henv : env.Positive)
    (heffects : Effects env stmt r s s') :
    ledger.Covers stmt.all (allOfStmts (r.before ++ [⟨stmt.id, stmt.span, r.form⟩])) s s' where
  grows := (sound.rewrites h heffects).grows
  count := by
    have hcount := (sound.rewrites h heffects).count
    have hbodies := tally_allOfBodies_perm (f := ledger.weight) (h.bodies_perm henv)
    have hbefore := tally_of_inner (f := ledger.weight) fun x hx => h.before_inner hx
    simp only [allOfStmts_append, allOfStmts, tally_append, tally_stmt, tally_cons, tally_nil,
      h.inner, hbefore, hbodies, allOfBodies_append] at hcount ⊢
    omega

/-- The declarations that the post statement of a loop needs are moved in front of the loop. -/
theorem covers_post {init test body post post' posts decls}
    (hform : stmt.form = .loop init test (some post) body)
    (hparts : posts.partition (fun x => x.id == id) = ([post'], decls))
    (hstuck : post'.form.isStuck = true → post.form.isStuck = true)
    (h : ledger.Covers (allOfStmts [post]) (allOfStmts posts) s s') :
    ledger.Covers stmt.all (allOfStmts (decls ++
      [⟨stmt.id, stmt.span, .loop init test (some post') body⟩])) s s' where
  grows := h.grows
  count := by
    obtain ⟨stmtId, span, form⟩ := stmt
    obtain rfl : form = _ := hform
    have hweight : ledger.weight ⟨stmtId, span, .loop init test (some post') body⟩ ≤
        ledger.weight ⟨stmtId, span, .loop init test (some post) body⟩ :=
      sound.compound _ _ rfl rfl hstuck
    have hposts := tally_of_partition (f := ledger.weight) hparts
    have hpost := h.count
    obtain ⟨stmts, place⟩ := body
    simp only [allOfStmts_append, allOfStmts, tally_append, Stmt.all, StmtForm.all, allOfStmt?,
      tally_nil, tally_cons] at hposts hpost hweight ⊢
    omega

/-- The values of a declaration move into a new statement. -/
theorem covers_split {names type value span} (s : State)
    (hform : stmt.form = .decl ⟨.var, [.value names type [value]], span⟩)
    (hnew : Divided names stmt.span form) :
    ledger.Covers stmt.all (allOfStmts [⟨stmt.id, stmt.span, form⟩, ⟨s.nextId, stmt.span,
      .assign (names.map fun name => .ident name.span name.val) .assign [value]⟩]) s
      { s with nextId := s.nextId + 1 } where
  grows := (sound.split s hform hnew).grows
  count := by
    have hcount := (sound.split s hform hnew).count
    have hdecl : form.bodies = [] ∧ form.inner = [] := by
      rcases hnew with rfl | ⟨vars, -, rfl⟩
      · exact ⟨rfl, rfl⟩
      · exact ⟨bodies_varDecl vars stmt.span, rfl⟩
    have hnames (names : List Name) :
        allOfExprs (names.map fun name => Expr.ident name.span name.val) = [] := by
      induction names with
      | nil => rfl
      | cons name names ih => exact ih
    obtain ⟨id, place, _⟩ := stmt
    obtain rfl := hform
    simp only [allOfStmts, Stmt.all, StmtForm.all, allOfSpecs, allOfExprs, tally_append, tally_cons,
      tally_nil, tally_form form, hdecl, hnames, allOfBodies, flatMap_nil] at hcount ⊢
    omega

theorem covers_settles {plan new} (h : Settles env plan stmt s new s') (hplan : plan.Ascending) :
    ledger.Covers stmt.all (allOfStmts new) s s' where
  grows := (sound.settles h).grows
  count := by
    have hcount := (sound.settles h).count
    have hbodies := tally_allOfBodies_perm (f := ledger.weight) (h.bodies_perm hplan)
    have hnew := tally_of_inner (f := ledger.weight) fun x hx => inner_of_isPlain (h.plain x hx)
    rw [tally_cons, tally_nil] at hcount
    rw [hnew, hbodies, tally_stmt]
    omega

end Steps

section Walk

variable {ledger : Ledger} {env : Env} {s s' : State}

theorem Covers.around {form' span} (h : ledger.Covers form.all form'.all s s')
    (hweight : ledger.weight ⟨id, span, form'⟩ ≤ ledger.weight ⟨id, span, form⟩) :
    ledger.Covers (Stmt.all ⟨id, span, form⟩) (Stmt.all ⟨id, span, form'⟩) s s' where
  grows := h.grows
  count := by
    have hform := h.count
    simp only [Stmt.all, tally_append, tally_cons, tally_nil]
    omega

/-- In a statement that holds no others, only function literals change. -/
theorem covers_plain {lowerBody form'} (h : LowersPlain env lowerBody form form' s s')
    (hbodies : ledger.Covers (allOfBodies form.bodies) (allOfBodies form'.bodies) s s') :
    ledger.Covers form.all form'.all s s' where
  grows := hbodies.grows
  count := by
    have hinner : form.inner = [] ∧ form'.inner = [] := by cases h <;> exact ⟨rfl, rfl⟩
    rw [tally_form, tally_form, hinner.1, hinner.2]
    exact hbodies.count

/-- Every run of the walk keeps to the ledger. -/
theorem Sound.walks (sound : ledger.Sound env) {task} (h : Walks env task s s')
    (henv : env.Positive) (hplan : ∀ p ∈ task.plan?, p.Ascending) :
    ledger.Covers task.input task.output s s' := by
  induction h with
  | nil | eachNil | noHeader | noBranch | armsNil | bodiesNil => exact .refl _ _
  | @hoist _ _ rest _ _ _ s _ _ hform _ ih =>
    have hstep := (covers_withoutInit sound s hform).append sound (.refl (allOfStmts rest) _)
    exact hstep.trans sound (ih hplan)
  | @post _ _ rest _ _ _ _ _ _ _ _ _ _ _ _ hform hneeds hposts hparts _ _ ih ih' =>
    have hstep := (covers_post sound hform hparts (hposts.isStuck_post hneeds hparts)
      (ih hplan)).append sound (.refl (allOfStmts rest) _)
    rw [← allOfStmts_append, append_assoc] at hstep
    exact hstep.trans sound (ih' hplan)
  | @split _ _ rest _ _ _ _ _ _ s _ _ hform hnew _ ih =>
    have hstep := (covers_split sound s hform hnew).append sound (.refl (allOfStmts rest) _)
    rw [← allOfStmts_append] at hstep
    exact hstep.trans sound (ih hplan)
  | @replace _ _ rest _ _ _ _ _ _ hrewrites heffects _ ih =>
    have hstep := (covers_rewrites sound hrewrites henv heffects).append sound
      (.refl (allOfStmts rest) _)
    rw [← allOfStmts_append, append_assoc] at hstep
    exact hstep.trans sound (ih hplan)
  | @settle plan _ _ _ _ _ _ _ _ _ _ _ _ hsettles _ _ ih ih' =>
    have hstep := ((covers_settles sound hsettles (hplan plan rfl)).trans sound (ih hplan)).append
      sound (ih' hplan)
    rw [Task.output, allOfStmts_append]
    exact hstep
  | enter _ _ _ _ _ ih ih' | eachCons _ _ _ ih ih' => exact (ih hplan).append sound (ih' hplan)
  | plain _ hform _ ih =>
    exact (covers_plain hform (ih Task.unplanned)).around (sound.plain _ _ hform)
  | block _ ih =>
    refine Covers.around ?_ (sound.compound _ _ rfl rfl fun h => h)
    exact ih hplan
  | cond _ _ _ _ _ ih1 ih2 ih3 ih4 =>
    have htest := ih2 Task.unplanned
    simp only [Task.input, Task.output, ← Expr.all_eq] at htest
    refine Covers.around ?_ (sound.compound _ _ rfl rfl fun h => h)
    exact (((ih1 hplan).append sound htest).append sound (ih3 hplan)).append sound (ih4 hplan)
  | switch _ _ _ _ ih1 ih2 ih3 =>
    have htag := ih2 Task.unplanned
    simp only [Task.input, Task.output, ← allOfExpr?_eq] at htag
    refine Covers.around ?_ (sound.compound _ _ rfl rfl fun h => h)
    exact ((ih1 hplan).append sound htag).append sound (ih3 hplan)
  | loop _ _ _ hpost _ ih1 ih2 ih3 ih4 =>
    have htest := ih2 Task.unplanned
    simp only [Task.input, Task.output, ← allOfExpr?_eq] at htest
    refine Covers.around ?_ (sound.compound _ _ rfl rfl hpost.hasStuckPost)
    exact (((ih1 hplan).append sound htest).append sound (ih3 hplan)).append sound (ih4 hplan)
  | range hkey hvalue _ _ _ ih ih' =>
    have hexprs := ih Task.unplanned
    simp only [Task.input, Task.output, allOfBodies_append, ← allOfExpr?_eq, ← Expr.all_eq]
      at hexprs
    refine Covers.around ?_ (sound.range _ _ _ _ _ _ _ hkey hvalue)
    exact hexprs.append sound (ih' hplan)
  | header _ _ _ ih | branch _ _ _ ih => exact ih hplan
  | inPlace _ hrewrites heffects _ ih =>
    have hstep := covers_rewrites sound hrewrites henv heffects
    simp only [nil_append, allOfStmts, append_nil] at hstep
    exact hstep.trans sound (ih hplan)
  | @wrap _ stmt _ _ _ _ _ s _ _ _ ih =>
    have hblock := (Covers.refl stmt.all s).append sound
      (sound.block s stmt.span ⟨[stmt], stmt.span⟩)
    have hstep : ledger.Covers stmt.all
        (Stmt.all ⟨s.nextId, stmt.span, .block ⟨[stmt], stmt.span⟩⟩) s
        { s with nextId := s.nextId + 1 } := by
      simpa only [Stmt.all, StmtForm.all, allOfStmts, append_nil] using hblock
    exact hstep.trans sound (ih hplan)
  | @armsCons plan _ _ _ _ _ _ _ _ _ _ _ _ _ _ _ _ ih1 ih2 ih3 =>
    have hlabels := ih1 Task.unplanned
    simp only [Task.input, Task.output, ← allOfExprs_eq] at hlabels
    have hclauses := (hlabels.append sound (ih2 hplan)).append sound (ih3 hplan)
    simp only [Task.input, Task.output, allOfCases_cons] at hclauses ⊢
    exact hclauses
  | bodiesCons _ _ ih ih' =>
    exact (ih hplan).append sound (ih' hplan)

/-- And so does every single visit. -/
theorem Sound.visits (sound : ledger.Sound env) {plan stmt step}
    (h : Visits env plan stmt s step s') (henv : env.Positive) (hplan : ∀ p ∈ plan, p.Ascending) :
    ledger.Covers stmt.all (allOfStmts step.stmts) s s' := by
  cases h with
  | hoist hform => simpa [Step.stmts, allOfStmts] using covers_withoutInit sound s hform
  | post hform hneeds hposts hparts =>
    exact covers_post sound hform hparts (hposts.isStuck_post hneeds hparts)
      (sound.walks hposts henv hplan)
  | split hform hnew => exact covers_split sound s hform hnew
  | replace hrewrites heffects => exact covers_rewrites sound hrewrites henv heffects
  | settle hp _ _ hsettles => exact covers_settles sound hsettles (hplan _ hp)
  | enter => simpa [Step.stmts, allOfStmts] using Covers.refl stmt.all s

end Walk

end Ledger

/-! ## How often an identity is held -/

/-- How many of the statements have the identity. -/
def held (i : NodeId) (xs : List Stmt) : Nat := tally (fun x => if x.id = i then 1 else 0) xs

/-- Whether the identity is among those given out when the next one rises from `low` to `high`. -/
def given (i low high : Nat) : Nat := if low ≤ i ∧ i < high then 1 else 0

/-- Identities that are held, and those that are given out. -/
def identities (i : NodeId) : Ledger where
  weight x := if x.id = i then 1 else 0
  clock := State.nextId
  supply := given i

section Held

variable {i : NodeId} {s s₁ s' : State} {xs : List Stmt}

theorem held_eq_count : held i xs = (xs.map Stmt.id).count i := by
  induction xs with
  | nil => rfl
  | cons x xs ih =>
    rw [map_cons, count_cons, ← ih, Nat.add_comm]
    simp [held]

theorem given_add {low mid high} (h : low ≤ mid) (h' : mid ≤ high) :
    given i low mid + given i mid high = given i low high := by
  unfold given
  split <;> split <;> split <;> omega

theorem given_succ (low : Nat) : given i low (low + 1) = if low = i then 1 else 0 := by
  unfold given
  split <;> split <;> omega

/-- New statements have identities that are given out, each its own. -/
theorem Issues.held_le (h : Issues s xs s') : held i xs ≤ given i s.nextId s'.nextId := by
  rw [held_eq_count]
  by_cases hi : i ∈ xs.map Stmt.id
  · obtain ⟨x, hx, rfl⟩ := mem_map.1 hi
    rw [given, if_pos (h.ids x hx)]
    exact nodup_iff_count_le_one.1 h.distinct _
  · rw [count_eq_zero_of_not_mem hi]
    exact Nat.zero_le _

/-- New statements in front of one that is there already. -/
theorem Issues.covers (h : Issues s xs s₁) (hnext : s'.nextId = s₁.nextId) (x : Stmt)
    (form : StmtForm) : (identities i).Covers [x] (xs ++ [⟨x.id, x.span, form⟩]) s s' where
  grows := Nat.le_trans h.nextId (Nat.le_of_eq hnext.symm)
  count := by
    have hnew : tally (identities i).weight xs ≤ given i s.nextId s'.nextId := hnext ▸ h.held_le
    rw [tally_append, Nat.add_comm]
    exact Nat.add_le_add (Nat.le_refl _) hnew

theorem identities_sound_steps (env : Env) (i : NodeId) : (identities i).Sound env where
  add := given_add
  block s span body := ⟨Nat.le_succ _, by simp [identities, given_succ]⟩
  compound _ _ _ _ _ := Nat.le_refl _
  range _ _ _ _ _ _ _ _ _ := Nat.le_refl _
  plain _ _ _ := Nat.le_refl _
  split s _ _ := ⟨Nat.le_succ _, by simp [identities, given_succ]⟩
  rewrites _ heffects := heffects.toIssues.covers rfl _ _
  settles h := by
    cases h with
    | values _ _ _ hissues | names _ _ _ _ hissues => exact hissues.covers (by rfl) _ _
    | call => exact (Issues.refl _).covers (by rfl) _ _
    | callOnly =>
      refine ⟨Nat.le_succ _, ?_⟩
      simp only [identities, tally_cons, tally_nil, given_succ]
      omega

end Held

/-- Each identity is held by no more statements of `ys` than of `xs`, and by one more when it was
given out meanwhile, while the next one rose from `low` to `high`. -/
structure Derives (xs ys : List Stmt) (low high : NodeId) : Prop where
  grows : low ≤ high
  count : ∀ i, held i ys ≤ held i xs + given i low high

/-- The statements have identities of their own, all of them below `next`. -/
structure Apart (xs : List Stmt) (next : NodeId) : Prop where
  distinct : (xs.map Stmt.id).Nodup
  below : ∀ id ∈ xs.map Stmt.id, id < next

section Derives

variable {xs ys : List Stmt} {low high : NodeId}

theorem held_eq_zero : held id xs = 0 ↔ id ∉ xs.map Stmt.id := by
  rw [held_eq_count, count_eq_zero]

/-- An identity that was not there before was given out meanwhile. -/
theorem Derives.given_of_mem (h : Derives xs ys low high) (hid : id ∈ ys.map Stmt.id)
    (hnew : id ∉ xs.map Stmt.id) : low ≤ id ∧ id < high := by
  have hheld := h.count id
  rw [held_eq_zero.2 hnew, Nat.zero_add] at hheld
  have hpos : held id ys ≠ 0 := fun h => held_eq_zero.1 h hid
  unfold given at hheld
  split at hheld
  · assumption
  · omega

theorem Derives.apart (h : Derives xs ys low high) (hxs : Apart xs low) : Apart ys high where
  distinct := by
    rw [nodup_iff_count_le_one]
    intro id
    rw [← held_eq_count]
    have hheld := h.count id
    by_cases hid : id ∈ xs.map Stmt.id
    · -- an identity that is in use is not given out again
      have hone := nodup_iff_count_le_one.1 hxs.distinct id
      rw [← held_eq_count] at hone
      have hnone : given id low high = 0 :=
        if_neg fun hgiven => Nat.not_le_of_lt (hxs.below id hid) hgiven.1
      omega
    · rw [held_eq_zero.2 hid] at hheld
      unfold given at hheld
      split at hheld <;> omega
  below := by
    intro id hid
    by_cases hold : id ∈ xs.map Stmt.id
    · exact Nat.lt_of_lt_of_le (hxs.below id hold) h.grows
    · exact (h.given_of_mem hid hold).2

end Derives

/-! ## Lowered files -/

section File

variable {env : Env} {i : NodeId} {s s' : State}

/-- The variables that stand in for named results are new. -/
theorem Issues.covers_declares {place locals} (h : Issues s locals s')
    (hlocals : ∀ x ∈ locals, Declares place x) :
    (identities i).Covers [] (allOfStmts locals) s s' where
  grows := h.nextId
  count := by
    have hinner : ∀ x ∈ locals, x.form.inner = [] := by
      intro x hx
      obtain ⟨-, vars, hform⟩ := hlocals x hx
      rw [hform]
      rfl
    have hnone : tally (identities i).weight (allOfBodies (bodiesOfStmts locals)) = 0 := by
      rw [bodies_of_declares hlocals]
      rfl
    rw [tally_of_inner hinner, hnone, tally_nil]
    exact Nat.add_le_add (Nat.le_refl 0) h.held_le

theorem WalksDecl.covers {decl decl'} (h : WalksDecl env decl decl' s s') (henv : env.Positive) :
    (identities i).Covers decl.all decl'.all s s' := by
  have sound := identities_sound_steps env i
  cases h with
  | head => exact .refl _ _
  | @func func body _ _ _ _ _ hbody hlocals hissues hwalks =>
    have hplan : ∀ p ∈ (lowerHead func).plan, p.Ascending := fun p hp => ascending_of_lowerHead hp
    have hlocal := (hissues.covers_declares hlocals).append sound
      (.refl (allOfStmts body.stmts) _)
    rw [← allOfStmts_append, nil_append] at hlocal
    have hdecl : Decl.all (.func func) = allOfStmts body.stmts := by simp [Decl.all, hbody]
    rw [hdecl]
    exact hlocal.trans sound (sound.walks hwalks henv hplan)
  | gen hwalks =>
    have hrun := sound.walks hwalks henv Task.unplanned
    simp only [Task.input, Task.output, ← allOfSpecs_eq] at hrun
    exact hrun

theorem WalksDecls.covers {decls decls'} (h : WalksDecls env decls decls' s s')
    (henv : env.Positive) :
    (identities i).Covers (decls.flatMap Decl.all) (decls'.flatMap Decl.all) s s' := by
  induction h with
  | nil => exact .refl _ _
  | cons hdecl _ ih => exact (hdecl.covers henv).append (identities_sound_steps env i) ih

end File

/-- Lowering a file keeps identities apart. -/
theorem lowerWith_derives {fuel resolver options lowered}
    (h : file.lowerWith fuel resolver options = .ok lowered) :
    Derives file.all lowered.file.all file.nextId lowered.file.nextId := by
  obtain ⟨s', hwalks, hlowered⟩ := lowerWith_walks h
  have hcovers (i : NodeId) := hwalks.covers (i := i) (positive_shapesOf file resolver options)
  rw [hlowered]
  exact ⟨(hcovers 0).grows, fun i => (hcovers i).count⟩

end Lowering

open Lowering

/-- Identities that are kept apart stay sound. -/
theorem Lowering.Derives.identified {file' : SourceFile}
    (h : Derives file.all file'.all file.nextId file'.nextId) (hfile : file.Identified) :
    file'.Identified :=
  have happart := h.apart ⟨hfile.distinct, hfile.below⟩
  ⟨happart.distinct, happart.below⟩

/-! ### Identities as words

Identities are stored in 32 bits. As long as the counter fits, nothing is lost by that. -/

theorem ofNat_le_ofNat {m n : Nat} (hn : n < UInt32.size) (h : m ≤ n) :
    UInt32.ofNat m ≤ UInt32.ofNat n := by
  rwa [UInt32.ofNat_le_iff_le (Nat.lt_of_le_of_lt h hn) hn]

theorem ofNat_inj_of_lt {a b next : Nat} (hroom : next < UInt32.size) (ha : a < next)
    (hb : b < next) (h : UInt32.ofNat a = UInt32.ofNat b) : a = b := by
  rw [← UInt32.toNat_ofNat_of_lt' (Nat.lt_trans ha hroom), h,
    UInt32.toNat_ofNat_of_lt' (Nat.lt_trans hb hroom)]

theorem SourceFile.Identified.words (h : file.Identified) (hroom : file.nextId < UInt32.size) :
    file.IdentifiedWords where
  distinct := h.distinct.map_on fun a ha b hb => ofNat_inj_of_lt hroom (h.below a ha) (h.below b hb)
  below := by
    intro word hword
    obtain ⟨id, hid, rfl⟩ := mem_map.1 hword
    have hbelow := h.below id hid
    exact (UInt32.ofNat_lt_iff_lt (Nat.lt_trans hbelow hroom) hroom).2 hbelow

/-- Identities are sound from the parser to the lowered tree. In a parsed file no two statements
share one, and all are below the next one to be given out. A successful lowering of a file like
this, whatever is known about types and whatever the options, gives a file like this again; the next
identity is not smaller, and what the file did not have before is at least the old one. The same is
true of the 32-bit numbers that identities are stored as, unless the counter ran over. -/
theorem SourceFile.identities_sound :
    (∀ (options : Token.ScanOptions) (index : Nat) (source : String) (file : SourceFile),
      SourceFile.ofSource options index source = .ok file →
        file.Identified ∧ (file.nextId < UInt32.size → file.IdentifiedWords)) ∧
    ∀ (file : SourceFile) (fuel : Nat) (resolver : Resolver) (options : Options)
      (lowered : Lowered), file.Identified → file.lowerWith fuel resolver options = .ok lowered →
      (lowered.file.Identified ∧ file.nextId ≤ lowered.file.nextId ∧
        ∀ id ∈ lowered.file.ids, id ∉ file.ids → file.nextId ≤ id) ∧
      (lowered.file.nextId < UInt32.size → lowered.file.IdentifiedWords ∧
        UInt32.ofNat file.nextId ≤ UInt32.ofNat lowered.file.nextId ∧
        ∀ id ∈ lowered.file.words, id ∉ file.words → UInt32.ofNat file.nextId ≤ id) := by
  refine ⟨fun _ _ _ _ h => ⟨identified_ofSource h, (identified_ofSource h).words⟩, ?_⟩
  intro file fuel resolver options lowered hfile hlower
  have hderives := lowerWith_derives hlower
  have hlowered := hderives.identified hfile
  have hnew (id : NodeId) (hid : id ∈ lowered.file.ids) (hnew : id ∉ file.ids) :=
    (hderives.given_of_mem hid hnew).1
  refine ⟨⟨hlowered, hderives.grows, hnew⟩, fun hroom => ⟨hlowered.words hroom, ?_, ?_⟩⟩
  · exact ofNat_le_ofNat hroom hderives.grows
  · intro word hword hother
    obtain ⟨id, hid, rfl⟩ := mem_map.1 hword
    have hid' : id ∉ file.ids := fun h => hother (mem_map_of_mem h)
    exact ofNat_le_ofNat (Nat.lt_trans (hlowered.below id hid) hroom) (hnew id hid hid')

/-- A loop whose initializer moves out, whose post statement is completed, and whose body updates an
element by the value of a function literal. -/
def relocating : String :=
  "package p\n\nfunc f() (int, int) \x7b\n\treturn 1, 2\n\x7d\n\n" ++
    "func g(m map[int]int, a int) \x7b\n\tfor i := m[1]; i < a; _, i = f() \x7b\n" ++
    "\t\tm[i] += func() int \x7b\n\t\t\treturn m[a]\n\t\t\x7d()\n\t\x7d\n\x7d\n"

theorem identities_sound_relocating :
    ∃ file lowered, SourceFile.ofSource {} 0 relocating = .ok file ∧
      file.lower (Table.ofFile file).resolver {} = .ok lowered ∧
      (file.ids = [0, 1, 2, 3, 4, 5] ∧
        lowered.file.ids = [6, 0, 8, 1, 2, 9, 10, 11, 12, 3, 4, 5, 7]) ∧ file.Identified ∧
      (lowered.file.Identified ∧ file.nextId ≤ lowered.file.nextId ∧
        ∀ id ∈ lowered.file.ids, id ∉ file.ids → file.nextId ≤ id) ∧
      lowered.file.IdentifiedWords := by
  obtain ⟨file, lowered, hfile, hlower, hids⟩ := @exists_lowered relocating
    (fun file lowered => (file.ids = [0, 1, 2, 3, 4, 5] ∧
      lowered.file.ids = [6, 0, 8, 1, 2, 9, 10, 11, 12, 3, 4, 5, 7]) ∧
      lowered.file.nextId < UInt32.size) (by decide +kernel)
  obtain ⟨hids, hroom⟩ := of_decide_eq_true hids
  have hparsed := (SourceFile.identities_sound.1 {} 0 relocating file hfile).1
  have hsound := SourceFile.identities_sound.2 file _ _ {} lowered hparsed hlower
  exact ⟨file, lowered, hfile, hlower, hids, hparsed, hsound.1, (hsound.2 hroom).1⟩

end ScriptLowering
