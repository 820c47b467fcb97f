import ScriptLowering.Pipeline
import ScriptLowering.Proofs.Convention
import ScriptLowering.Proofs.Nodes
import ScriptLowering.Proofs.Walk

/-!
# Statements inside statements

`Inside literal outer inner` says that a statement occurs in another one, and whether a function
literal lies between the two. What the grammar gives a whole tree, it gives every statement in it.
-/

namespace ScriptLowering

open List

variable {path shape : List Nat} {file : SourceFile} {form : StmtForm} {base e key target : Expr}
  {node : TreeNode} {place span : Span} {targets : List Expr} {temp : String}

/-- The statements that stand directly inside a form. -/
def StmtForm.inner : StmtForm → List Stmt
  | .labeled _ stmt => [stmt]
  | .block body => body.stmts
  | .cond init _ body otherwise => init.toList ++ body.stmts ++ otherwise.toList
  | .switch init _ clauses => init.toList ++ clauses.flatMap (·.body)
  | .typeSwitch init guard clauses => init.toList ++ guard :: clauses.flatMap (·.body)
  | .select clauses => clauses.flatMap fun clause => clause.comm.toList ++ clause.body
  | .loop init _ post body => init.toList ++ post.toList ++ body.stmts
  | .range _ _ _ _ body => body.stmts
  | _ => []

/-- The second statement occurs in the first, behind a function literal or not. -/
inductive Inside : (literal : Bool) → Stmt → Stmt → Prop
  | self {x} : Inside false x x
  | part {literal x y z} : y ∈ x.form.inner → Inside literal y z → Inside literal x z
  | body {literal x y z stmts} : stmts ∈ x.form.bodies → y ∈ stmts → Inside literal y z →
    Inside true x z

/-- The statements that stand directly in a declaration: those of the body of a function, or of the
function literals among the values of a declaration. -/
def Decl.stmts : Decl → List Stmt
  | .func decl => (decl.body.map Block.stmts).getD []
  | .gen decl => (bodiesOfExprs (decl.specs.flatMap Spec.values)).flatten

/-- The statement occurs in the file. -/
def SourceFile.Holds (file : SourceFile) (x : Stmt) : Prop :=
  ∃ decl ∈ file.decls, ∃ y ∈ decl.stmts, ∃ literal, Inside literal y x

/-- Statements nest: what stands in a part of an inner statement stands in the outer one. -/
theorem Inside.inner {literal x y z} (h : Inside literal x y) (hz : z ∈ y.form.inner) :
    Inside literal x z := by
  induction h with
  | self => exact .part hz .self
  | part hy _ ih => exact .part hy (ih hz)
  | body hstmts hy _ ih => exact .body hstmts hy (ih hz)

/-- The statement at a path of positions, outside function literals. -/
def stmtAt? : List Stmt → List Nat → Option Stmt
  | _, [] => none
  | stmts, [i] => stmts[i]?
  | stmts, i :: path => stmts[i]?.bind fun x => stmtAt? x.form.inner path

theorem inside_of_stmtAt? {stmts x} (h : stmtAt? stmts path = some x) :
    ∃ y ∈ stmts, Inside false y x := by
  induction path generalizing stmts with
  | nil => simp [stmtAt?] at h
  | cons i path ih =>
    cases path with
    | nil => exact ⟨x, mem_of_getElem? h, .self⟩
    | cons j path =>
      obtain ⟨y, hy, hx⟩ := Option.bind_eq_some_iff.1 h
      obtain ⟨z, hz, hin⟩ := ih hx
      exact ⟨y, mem_of_getElem? hy, .part hz hin⟩

/-- The statement at a path in the body of the last declaration. -/
def SourceFile.stmtAt? (file : SourceFile) (path : List Nat) : Option Stmt :=
  file.decls.getLast?.bind fun decl => ScriptLowering.stmtAt? decl.stmts path

theorem SourceFile.holds_of_stmtAt? {x} (h : file.stmtAt? path = some x) : file.Holds x := by
  obtain ⟨decl, hdecl, hx⟩ := Option.bind_eq_some_iff.1 h
  obtain ⟨y, hy, hin⟩ := inside_of_stmtAt? hx
  exact ⟨decl, mem_of_getLast? hdecl, y, hy, false, hin⟩

theorem eq_ok_of_toOption {ε α : Type} {e : Except ε α} {a} (h : e.toOption = some a) :
    e = .ok a := by
  cases e with
  | error r => simp [Except.toOption] at h
  | ok b =>
    cases h
    rfl

/-- A source that parses and can be lowered, with what is found of the two files. -/
theorem exists_lowered {source : String} {found : SourceFile → Lowered → Bool}
    (h : ((SourceFile.ofSource {} 0 source).toOption.bind fun file =>
      (file.lower (Table.ofFile file).resolver {}).toOption.filter (found file)).isSome = true) :
    ∃ file lowered, SourceFile.ofSource {} 0 source = .ok file ∧
      file.lower (Table.ofFile file).resolver {} = .ok lowered ∧ found file lowered = true := by
  obtain ⟨lowered, hrun⟩ := Option.isSome_iff_exists.1 h
  obtain ⟨file, hfile, hrun⟩ := Option.bind_eq_some_iff.1 hrun
  obtain ⟨hlowered, hfound⟩ := Option.filter_eq_some_iff.1 hrun
  exact ⟨file, lowered, eq_ok_of_toOption hfile, eq_ok_of_toOption hlowered, hfound⟩

/-- The statement at a path of a parsed source. -/
def parsedStmt? (source : String) (path : List Nat) : Option (SourceFile × Stmt) :=
  (SourceFile.ofSource {} 0 source).toOption.bind fun file =>
    (file.stmtAt? path).map fun stmt => (file, stmt)

theorem holds_of_parsedStmt? {source : String} {stmt}
    (h : parsedStmt? source path = some (file, stmt)) :
    SourceFile.ofSource {} 0 source = .ok file ∧ file.Holds stmt := by
  obtain ⟨file', hfile, hstmt⟩ := Option.bind_eq_some_iff.1 h
  obtain ⟨stmt', hstmt', hpair⟩ := Option.map_eq_some_iff.1 hstmt
  cases hpair
  exact ⟨eq_ok_of_toOption hfile, SourceFile.holds_of_stmtAt? hstmt'⟩

theorem SourceFile.mem_functions {func} : func ∈ file.functions ↔ .func func ∈ file.decls := by
  unfold functions
  rw [mem_filterMap]
  constructor
  · rintro ⟨decl, hdecl, hfunc⟩
    cases decl with
    | func decl =>
      cases hfunc
      exact hdecl
    | gen decl => cases hfunc
  · intro h
    exact ⟨.func func, h, rfl⟩

theorem SourceFile.Holds.inner {x y} (h : file.Holds x) (hy : y ∈ x.form.inner) : file.Holds y := by
  obtain ⟨decl, hdecl, z, hz, literal, hx⟩ := h
  exact ⟨decl, hdecl, z, hz, literal, hx.inner hy⟩

open Grammar

/-! ## Statements as nodes -/

/-- A statement right inside a form is a node right below the form, or stands in one: in a block or
an arm. -/
theorem StmtForm.mem_inner_nodes {x} (h : x ∈ form.inner) :
    .stmt x ∈ form.treeNodes ∨ ∃ node ∈ form.treeNodes, .stmt x ∈ node.children := by
  cases form <;> simp [inner, treeNodes, TreeNode.children] at h ⊢ <;> grind

theorem mem_specNodes {specs : List Spec} (h : e ∈ specs.flatMap Spec.values) :
    .expr e ∈ specs.flatMap Spec.treeNodes := by
  obtain ⟨spec, hspec, he⟩ := mem_flatMap.1 h
  refine mem_flatMap.2 ⟨spec, hspec, ?_⟩
  cases spec with
  | value => exact mem_append_right _ (mem_map_of_mem he)
  | typeName => cases he

/-- An expression that a form holds is a node right below the form, or stands in a declaration or
in front of an arm. -/
theorem StmtForm.mem_exprs_nodes (h : e ∈ form.exprs) :
    .expr e ∈ form.treeNodes ∨
      (∃ decl : GenDecl, .decl (.gen decl) ∈ form.treeNodes ∧
        .expr e ∈ decl.specs.flatMap Spec.treeNodes) ∨
      ∃ clause, .caseClause clause ∈ form.treeNodes ∧ e ∈ clause.labels := by
  cases form with
  | decl decl =>
    obtain ⟨keyword, specs, span⟩ := decl
    exact .inr (.inl ⟨_, mem_singleton_self _, mem_specNodes h⟩)
  | _ => simp [exprs, treeNodes] at h ⊢ <;> grind

namespace TreeNode

theorem Above.trans {x y z : TreeNode} (h : x.Above y) (h' : y.Above z) : x.Above z := by
  induction h with
  | refl => exact h'
  | child mem _ ih => exact .child mem (ih h')

theorem above_child {x y : TreeNode} (h : y ∈ x.children) : x.Above y := .child h (.refl y)

theorem above_inner {x y : Stmt} (h : y ∈ x.form.inner) : (stmt x).Above (.stmt y) := by
  rcases StmtForm.mem_inner_nodes h with h | ⟨node, hnode, h⟩
  · exact above_child h
  · exact .child hnode (above_child h)

theorem above_exprs {x : Stmt} (h : e ∈ x.form.exprs) : (stmt x).Above (.expr e) := by
  rcases StmtForm.mem_exprs_nodes h with h | ⟨decl, hdecl, h⟩ | ⟨clause, hclause, h⟩
  · exact above_child h
  · exact .child hdecl (above_child h)
  · exact .child hclause (above_child (mem_append_left _ (mem_map_of_mem h)))

theorem mem_children_of_parts {x} (h : x ∈ e.parts) : .expr x ∈ (expr e).children := by
  cases e <;> simp [Expr.parts, children, Expr.treeNodes] at h ⊢ <;> grind

theorem above_surface {x} (h : x ∈ e.surface) : (expr e).Above (.expr x) := by
  induction e using Expr.induct with
  | h e ih =>
    rw [Expr.surface_eq] at h
    rcases mem_cons.1 h with rfl | h
    · exact .refl _
    · obtain ⟨part, hpart, h⟩ := mem_surfaceOfExprs.1 h
      exact .child (mem_children_of_parts hpart) (ih part hpart h)

/-- The statements of a function literal stand below the expression. -/
theorem above_bodies {stmts : List Stmt} {x} (h : stmts ∈ e.bodies) (hx : x ∈ stmts) :
    (expr e).Above (.stmt x) := by
  induction e using Expr.induct with
  | h e ih =>
    cases hliteral : e.isLiteral with
    | false =>
      rw [Lowering.bodies_parts hliteral] at h
      obtain ⟨part, hpart, h⟩ := mem_bodiesOfExprs.1 h
      exact .child (mem_children_of_parts hpart) (ih part hpart h)
    | true =>
      cases e with
      | funcLit span params results body =>
        obtain ⟨inner, place⟩ := body
        obtain rfl := mem_singleton.1 h
        exact .child (mem_append_right _ (mem_singleton_self _))
          (above_child (mem_map_of_mem hx))
      | _ => cases hliteral

theorem above_stmts {declared : Decl} {x} (h : x ∈ declared.stmts) :
    (decl declared).Above (.stmt x) := by
  cases declared with
  | func func =>
    cases hbody : func.body with
    | none => simp [Decl.stmts, hbody] at h
    | some body =>
      have hx : x ∈ body.stmts := by simpa [Decl.stmts, hbody] using h
      have hblock : .block body ∈ (decl (.func func)).children :=
        mem_append_right _ (by simp [hbody])
      exact .child hblock (above_child (mem_map_of_mem hx))
  | gen gen =>
    obtain ⟨stmts, hstmts, hx⟩ := mem_flatten.1 h
    obtain ⟨e, he, hstmts⟩ := mem_bodiesOfExprs.1 hstmts
    exact .child (mem_specNodes he) (above_bodies hstmts hx)

end TreeNode

theorem Inside.above {literal : Bool} {x y} (h : Inside literal x y) :
    (TreeNode.stmt x).Above (.stmt y) := by
  induction h with
  | self => exact .refl _
  | part hy _ ih => exact (TreeNode.above_inner hy).trans ih
  | body hstmts hy _ ih =>
    obtain ⟨e, he, hstmts⟩ := mem_bodiesOfExprs.1 hstmts
    exact (TreeNode.above_exprs he).trans ((TreeNode.above_bodies hstmts hy).trans ih)

theorem Span.contains_trans {a b c : Span} (h : a.contains b = true) (h' : b.contains c = true) :
    a.contains c = true := by
  obtain ⟨hfile, hstart, hstop⟩ := contains_iff.1 h
  obtain ⟨hfile', hstart', hstop'⟩ := contains_iff.1 h'
  exact contains_iff.2 ⟨hfile.trans hfile', by omega, by omega⟩

section Placed

variable {file : Nat} {a b : Mark} {x : Stmt}

theorem Grammar.Placed.formed (h : Placed file node a b) : node.Formed := by
  obtain ⟨-, hformed, -, -, -⟩ := h
  exact hformed

/-- The span of a node contains those of the nodes below. -/
theorem Grammar.Placed.contains {below} (h : Placed file node a b) (habove : node.Above below) :
    node.span.contains below.span = true :=
  Span.contains_iff.2 ⟨(Placed.local.covers h).file.trans
    (Placed.local.covers (h.above habove)).file.symm, h.bounds habove⟩

/-- The identity of a parsed statement was given out meanwhile. -/
theorem Grammar.Placed.id (h : Placed file (.stmt x) a b) : a.id ≤ x.id ∧ x.id < b.id := by
  obtain ⟨-, -, hearly, hnumbered, hchildren⟩ := h
  exact ⟨Nat.le_trans hearly (Nat.le_trans (hchildren.id_le Placed.local) hnumbered.1), hnumbered.2⟩

theorem SourceFile.Holds.above {source : SourceFile} (h : source.Holds x) :
    ∃ node ∈ source.decls.map TreeNode.decl, node.Above (.stmt x) := by
  obtain ⟨decl, hdecl, y, hy, literal, hx⟩ := h
  exact ⟨_, mem_map_of_mem hdecl, (TreeNode.above_stmts hy).trans hx.above⟩

/-- Every statement of a parsed file has the shape and the place the grammar gives it. -/
theorem SourceFile.Holds.placed {source : SourceFile} (h : source.Holds x)
    (hdecls : Strung (Placed file) (source.decls.map .decl) a b) : Placed file (.stmt x) a b := by
  obtain ⟨node, hnode, habove⟩ := h.above
  exact (hdecls.mem Placed.local hnode).above habove

end Placed

/-- The identities ascend between two bounds. -/
structure Ascends (xs : List Stmt) (low high : NodeId) : Prop where
  sorted : (xs.map Stmt.id).Pairwise (· < ·)
  bounds : ∀ x ∈ xs, low ≤ x.id ∧ x.id < high
  le : low ≤ high

section Ascends

variable {xs ys : List Stmt} {low mid high : NodeId}

theorem Ascends.nil (h : low ≤ high) : Ascends [] low high := ⟨.nil, by simp, h⟩

theorem Ascends.append (h : Ascends xs low mid) (h' : Ascends ys mid high) :
    Ascends (xs ++ ys) low high where
  sorted := by
    rw [map_append, pairwise_append]
    refine ⟨h.sorted, h'.sorted, ?_⟩
    intro i hi j hj
    obtain ⟨x, hx, rfl⟩ := mem_map.1 hi
    obtain ⟨y, hy, rfl⟩ := mem_map.1 hj
    exact Nat.lt_of_lt_of_le (h.bounds x hx).2 (h'.bounds y hy).1
  bounds := by
    intro x hx
    rcases mem_append.1 hx with hx | hx
    · exact ⟨(h.bounds x hx).1, Nat.lt_of_lt_of_le (h.bounds x hx).2 h'.le⟩
    · exact ⟨Nat.le_trans h.le (h'.bounds x hx).1, (h'.bounds x hx).2⟩
  le := Nat.le_trans h.le h'.le

theorem Ascends.mono (h : Ascends xs low high) {low' high'} (hlow : low' ≤ low)
    (hhigh : high ≤ high') : Ascends xs low' high' where
  sorted := h.sorted
  bounds x hx := ⟨Nat.le_trans hlow (h.bounds x hx).1, Nat.lt_of_lt_of_le (h.bounds x hx).2 hhigh⟩
  le := Nat.le_trans hlow (Nat.le_trans h.le hhigh)

theorem Ascends.sublist (h : Ascends xs low high) (hsub : ys.Sublist xs) : Ascends ys low high where
  sorted := h.sorted.sublist (hsub.map _)
  bounds x hx := h.bounds x (hsub.subset hx)
  le := h.le

theorem Ascends.nodup (h : Ascends xs low high) : (xs.map Stmt.id).Nodup :=
  h.sorted.imp Nat.ne_of_lt

/-- The node itself, if it is a statement. -/
def TreeNode.self : TreeNode → List Stmt
  | .stmt x => [x]
  | _ => []

/-- Identities are given out in the order of the tree, to a statement after all in it: statements
that are listed so ascend. -/
theorem Grammar.Placed.ascends {f : TreeNode → List Stmt}
    (hf : ∀ node, (f node).Sublist (node.children.flatMap f ++ node.self)) {file a b}
    (h : Placed file node a b) : Ascends (f node) a.id b.id := by
  have hall {nodes : List TreeNode} {a b : Mark}
      (h : Strung (fun node a b => Ascends (f node) a.id b.id) nodes a b) :
      Ascends (nodes.flatMap f) a.id b.id := by
    induction h with
    | nil hid => exact .nil hid
    | cons head le tail ih =>
      rw [flatMap_cons]
      exact head.append ih
  refine Placed.induct (M := fun node a b => Ascends (f node) a.id b.id)
    (fun {node a b first last} _ _ hearly hnumbered hchildren => ?_) h
  have hself : Ascends node.self last b.id := by
    cases node with
    | stmt x =>
      refine ⟨pairwise_singleton _ _, fun y hy => ?_, hnumbered.le⟩
      obtain rfl := mem_singleton.1 hy
      exact hnumbered
    | _ => exact .nil hnumbered.le
  exact (((hall hchildren).append hself).sublist (hf node)).mono hearly (Nat.le_refl _)

theorem Grammar.Strung.ascends {f : TreeNode → List Stmt}
    (hf : ∀ node, (f node).Sublist (node.children.flatMap f ++ node.self)) {file nodes a b}
    (h : Strung (Placed file) nodes a b) : Ascends (nodes.flatMap f) a.id b.id := by
  induction nodes generalizing a with
  | nil =>
    cases h with
    | nil hid => exact .nil hid
  | cons node nodes ih =>
    cases h with
    | cons head le tail =>
      rw [flatMap_cons]
      exact (head.ascends hf).append (ih tail)

end Ascends

namespace Lowering

/-! ## What a rule does to the statements inside -/

section Rules

variable {env : Env} {stmt : Stmt} {r : Replacement}

/-- A rule puts declarations and reads in front, at the place of the statement. -/
theorem Rewrites.before_form (h : Rewrites env stmt r) {x} (hx : x ∈ r.before) :
    x.span = stmt.span ∧ (Declares stmt.span x ∨ ∃ e, x.form = .expr e) := by
  cases h with
  | write => simp at hx
  | read _ _ _ _ hbefore | define _ _ _ hbefore | complete _ _ _ hbefore =>
    exact ⟨(hbefore x hx).1, .inl (hbefore x hx)⟩
  | update _ _ hreads | hoist _ _ hreads =>
    obtain ⟨declaration, reading, rfl, hdeclares, hspan, hform⟩ := hreads
    simp only [mem_cons, not_mem_nil, or_false] at hx
    rcases hx with rfl | rfl
    · exact ⟨hdeclares.1, .inl hdeclares⟩
    · exact ⟨hspan, .inr ⟨_, hform⟩⟩

theorem inner_of_isPlain {form : StmtForm} (h : isPlain form = true) : form.inner = [] := by
  cases form with
  | labeled | block | cond | switch | typeSwitch | select | loop | range => simp [isPlain] at h
  | _ => rfl

theorem Rewrites.before_isPlain (h : Rewrites env stmt r) {x} (hx : x ∈ r.before) :
    isPlain x.form = true := by
  rcases (h.before_form hx).2 with ⟨vars, span, hform⟩ | ⟨e, hform⟩ <;> simp [hform, isPlain]

theorem Rewrites.before_inner (h : Rewrites env stmt r) {x} (hx : x ∈ r.before) :
    x.form.inner = [] :=
  inner_of_isPlain (h.before_isPlain hx)

theorem Rewrites.before_flat (h : Rewrites env stmt r) {x} (hx : x ∈ r.before) :
    x.isFlat = true := by
  rcases (h.before_form hx).2 with ⟨vars, span, hform⟩ | ⟨e, hform⟩ <;> simp [Stmt.isFlat, hform]

/-- A rule leaves a statement without statements in it as one. -/
theorem Rewrites.flat (h : Rewrites env stmt r) (hstmt : stmt.isFlat = true) :
    (⟨stmt.id, stmt.span, r.form⟩ : Stmt).isFlat = true := by
  obtain ⟨id, span, form⟩ := stmt
  obtain ⟨before, form'⟩ := r
  cases h.reforms with
  | action _ ha => cases ha <;> rfl
  | without _ hx =>
    cases hx with
    | ret | cond | switch | range => simp [Stmt.isFlat] at hstmt
    | _ => rfl

theorem withoutInit_inner {inner init} (h : form.withoutInit = some (init, inner)) :
    form.inner = init :: inner.inner := by
  cases StmtForm.opens h <;> rfl

/-- A rule leaves the statements inside a statement where they are. -/
theorem Rewrites.inner (h : Rewrites env stmt r) : r.form.inner = stmt.form.inner := by
  obtain ⟨id, span, form⟩ := stmt
  obtain ⟨before, form'⟩ := r
  cases h.reforms with
  | action ha ha' => cases ha <;> cases ha' <;> rfl
  | without _ hx => cases hx <;> rfl

/-! ## What a rule does to function literals -/

/-- Every shape gives each entry a value. -/
def Env.Positive (env : Env) : Prop := ∀ entry ∈ env.shapes, ∀ arity ∈ entry.2, 0 < arity

/-- The shapes of a file do. -/
theorem positive_shapesOf (file : SourceFile) (resolver : Resolver) (options : Options) :
    Env.Positive ⟨resolver, options, shapesOf file⟩ := by
  intro entry hentry arity harity
  obtain ⟨func, -, rfl⟩ := mem_map.1 hentry
  exact shapeOf_pos _ arity harity

theorem mem_of_lookup {shapes : List (String × List Nat)} {name}
    (h : shapes.lookup name = some shape) : (name, shape) ∈ shapes := by
  induction shapes with
  | nil => simp at h
  | cons entry shapes ih =>
    rw [lookup_cons] at h
    split at h
    · rename_i hname
      obtain rfl : name = entry.1 := by simpa using hname
      cases h
      exact mem_cons_self
    · exact mem_cons_of_mem _ (ih h)

/-- The shape of a call has as many values as the call binds. -/
theorem Env.Positive.callShape (h : env.Positive) (call : Expr) (count : Nat) :
    valueCount (env.callShape call count) = count ∧
      ∀ arity ∈ env.callShape call count, 0 < arity := by
  have hsingle : valueCount (replicate count 1) = count ∧
      ∀ arity ∈ replicate count 1, 0 < arity := by
    refine ⟨?_, by simp⟩
    induction count with
    | zero => rfl
    | succ count ih =>
      rw [replicate_succ, valueCount, foldr_cons, ← valueCount, ih]
      omega
  unfold Env.callShape
  split
  · rename_i shape hshape
    split
    · rename_i hcount
      obtain ⟨name, -, hlookup⟩ := Option.bind_eq_some_iff.1 hshape
      exact ⟨hcount, h _ (mem_of_lookup hlookup)⟩
    · exact hsingle
  · exact hsingle

theorem Named.bodies {target'} (h : Named target target') : target'.bodies = target.bodies := by
  rcases h with rfl | ⟨hblank, name, rfl⟩
  · rfl
  · cases target with
    | ident => rfl
    | _ => simp [Expr.isBlank, Expr.name?] at hblank

theorem bodies_of_named {targets'} (h : Forall₂ Named targets targets') :
    bodiesOfExprs targets' = bodiesOfExprs targets := by
  induction h with
  | nil => rfl
  | cons htarget _ ih => simp [bodiesOfExprs, htarget.bodies, ih]

theorem bodies_of_isBlank (h : e.isBlank = true) : e.bodies = [] := by
  cases e with
  | ident => rfl
  | _ => simp [Expr.isBlank, Expr.name?] at h

@[simp] theorem bodies_expr (e : Expr) : (StmtForm.expr e).bodies = e.bodies :=
  append_nil _

@[simp] theorem bodies_incDec (e : Expr) (increments : Bool) :
    (StmtForm.incDec e increments).bodies = e.bodies :=
  append_nil _

@[simp] theorem bodies_assign (targets : List Expr) (op : AssignOp) (values : List Expr) :
    (StmtForm.assign targets op values).bodies = bodiesOfExprs targets ++ bodiesOfExprs values :=
  bodiesOfExprs_append targets values

@[simp] theorem bodies_ret (values : List Expr) :
    (StmtForm.ret values).bodies = bodiesOfExprs values := rfl

@[simp] theorem bodies_varDecl (vars : List Var) (span : Span) :
    (StmtForm.decl (varDecl vars span)).bodies = [] := by
  have hvalues : (varDecl vars span).specs.flatMap Spec.values = [] := by
    rw [flatMap_eq_nil_iff]
    intro spec hspec
    obtain ⟨var, -, rfl⟩ := mem_map.1 hspec
    rfl
  exact congrArg bodiesOfExprs hvalues

@[simp] theorem bodies_block (body : Block) : (StmtForm.block body).bodies = [] := rfl

@[simp] theorem bodies_cond (init : Option Stmt) (test : Expr) (body : Block)
    (otherwise : Option Stmt) : (StmtForm.cond init test body otherwise).bodies = test.bodies :=
  append_nil _

@[simp] theorem bodies_switch (init : Option Stmt) (tag : Option Expr)
    (clauses : List CaseClause) :
    (StmtForm.switch init tag clauses).bodies =
      bodiesOfExpr? tag ++ bodiesOfExprs (clauses.flatMap CaseClause.labels) := by
  rw [StmtForm.bodies, StmtForm.exprs, bodiesOfExprs_append, bodiesOfExprs_toList]

@[simp] theorem bodies_loop (init : Option Stmt) (test : Option Expr) (post : Option Stmt)
    (body : Block) : (StmtForm.loop init test post body).bodies = bodiesOfExpr? test :=
  bodiesOfExprs_toList test

@[simp] theorem bodies_range (key value : Option Expr) (defines : Bool) (subject : Expr)
    (body : Block) :
    (StmtForm.range key value defines subject body).bodies =
      bodiesOfExpr? key ++ bodiesOfExpr? value ++ subject.bodies := by
  simp [StmtForm.bodies, StmtForm.exprs, bodiesOfExprs_append, bodiesOfExprs_toList, bodiesOfExprs]

theorem Declares.bodies (h : Declares place stmt) : stmt.form.bodies = [] := by
  obtain ⟨-, vars, hform⟩ := h
  rw [hform, bodies_varDecl]

@[simp] theorem bodies_callOf (name : String) (args : List Expr) (span : Span) :
    (Expr.callOf name args span).bodies = bodiesOfExprs args := rfl

@[simp] theorem bodies_address (target : Expr) : target.address.bodies = target.bodies := rfl

/-- The function literals of statements, those of one statement after those of another. -/
def bodiesOfStmts (stmts : List Stmt) : List (List Stmt) := stmts.flatMap (·.form.bodies)

theorem mem_bodiesOfStmts {body stmts} :
    body ∈ bodiesOfStmts stmts ↔ ∃ x ∈ stmts, body ∈ x.form.bodies :=
  mem_flatMap

theorem bodies_of_declares {stmts} (h : ∀ x ∈ stmts, Declares place x) : bodiesOfStmts stmts = [] :=
  flatMap_eq_nil_iff.2 fun x hx => (h x hx).bodies

theorem Env.ReadsFirst.bodies {callSpan before}
    (h : env.ReadsFirst place span callSpan base key temp before) :
    bodiesOfStmts before = base.bodies ++ key.bodies := by
  obtain ⟨declaration, reading, rfl, hdeclares, -, hform⟩ := h
  simp [bodiesOfStmts, hdeclares.bodies, hform, Env.readCall, bodiesOfExprs, Expr.bodies]

/-- The function literals of a list of expressions, position by position. -/
theorem bodiesOfExprs_eq_flatMap (es : List Expr) :
    bodiesOfExprs es = (range es.length).flatMap fun i => bodiesOfExpr? es[i]? := by
  induction es with
  | nil => rfl
  | cons e es ih =>
    rw [length_cons, range_succ_eq_map, flatMap_cons, flatMap_map,
      bodiesOfExprs, ih]
    rfl

/-- A completed call holds the function literals of its targets, each target standing in it
once. -/
theorem completedForm_bodies
    (hshape : ∀ arity ∈ shape, 0 < arity) (hcount : valueCount shape = targets.length)
    (span : Span) (callee : Expr) (args : List Expr) (spread : Bool) :
    (completedForm shape targets span callee args spread).bodies.Perm
      (bodiesOfExprs targets ++ (Expr.call span callee args spread).bodies) := by
  -- the positions that are passed by address, and the first when it stays, are all positions
  have houts : bodiesOfExprs ((outPositions shape).filterMap fun position =>
      targets[position]?.map Expr.address) =
      (outPositions shape).flatMap fun position => bodiesOfExpr? targets[position]? := by
    induction outPositions shape with
    | nil => rfl
    | cons position positions ih =>
      rw [filterMap_cons, flatMap_cons, ← ih]
      cases targets[position]? <;> rfl
  have hall : (bodiesOfExprs targets).Perm
      (bodiesOfExpr? (if firstStays shape then targets.head? else none) ++
        (outPositions shape).flatMap fun position => bodiesOfExpr? targets[position]?) := by
    have hperm := (kept_append_out_perm hshape).flatMap_right
      fun position => bodiesOfExpr? targets[position]?
    rw [hcount, ← bodiesOfExprs_eq_flatMap, flatMap_append] at hperm
    refine hperm.symm.trans (Perm.of_eq (congrArg (· ++ _) ?_))
    unfold keptPositions
    split
    · rw [flatMap_cons, flatMap_nil, append_nil, head?_eq_getElem?]
    · rfl
  refine Perm.trans ?_ (hall.symm.append_right _)
  unfold completedForm
  split
  · rename_i first hfirst
    split at hfirst
    · rename_i hstays
      have hhead := (Option.filter_eq_some_iff.1 hfirst).1
      simp only [bodies_assign, bodiesOfExprs, Expr.bodies, bodiesOfExprs_append, append_nil,
        houts, hstays, if_true, hhead, bodiesOfExpr?, append_assoc]
      refine Perm.append_left _ ?_
      rw [← append_assoc]
      exact perm_append_comm
    · contradiction
  · rename_i hfirst
    -- a first target that is dropped is blank
    have hnone : bodiesOfExpr? (if firstStays shape then targets.head? else none) = [] := by
      split
      · rename_i hstays
        rw [if_pos hstays] at hfirst
        cases hhead : targets.head? with
        | none => rfl
        | some first =>
          rw [hhead, Option.filter_some] at hfirst
          split at hfirst
          · contradiction
          · rename_i hblank
            exact bodies_of_isBlank (by simpa using hblank)
      · rfl
    simp only [bodies_expr, Expr.bodies, bodiesOfExprs_append, houts, hnone, nil_append]
    rw [← append_assoc]
    exact perm_append_comm

theorem readForm_bodies {flag?} : (env.readForm base key target flag? span).bodies =
      bodiesOfExpr? flag? ++ (base.bodies ++ (key.bodies ++ target.bodies)) := by
  cases flag? <;> simp [Env.readForm, Env.readCall, bodiesOfExprs, bodiesOfExpr?]

mutual

/-- What may be evaluated twice holds no function literal. -/
theorem bodies_of_isStable (e : Expr) (h : isStable e = true) : e.bodies = [] := by
  match e with
  | .ident .. | .lit .. | .type .. => rfl
  | .call .. | .funcLit .. => simp [isStable] at h
  | .composite _ _ elems => exact bodies_of_areStable elems h
  | .paren _ inner | .selector _ inner _ | .typeAssert _ inner _ =>
    exact bodies_of_isStable inner h
  | .unary _ op inner =>
    cases op with
    | receive => simp [isStable] at h
    | _ => exact bodies_of_isStable inner h
  | .index _ left right | .keyValue _ left right | .binary _ _ left right =>
    simp only [isStable, Bool.and_eq_true] at h
    simp [Expr.bodies, bodies_of_isStable left h.1, bodies_of_isStable right h.2]
  | .slice _ base low high max =>
    simp only [isStable, Bool.and_eq_true] at h
    simp [Expr.bodies, bodies_of_isStable base h.1.1.1, bodies_of_isStable? low h.1.1.2,
      bodies_of_isStable? high h.1.2, bodies_of_isStable? max h.2]

theorem bodies_of_isStable? (e : Option Expr) (h : isStable? e = true) : bodiesOfExpr? e = [] := by
  match e with
  | none => rfl
  | some e => exact bodies_of_isStable e h

theorem bodies_of_areStable (es : List Expr) (h : areStable es = true) : bodiesOfExprs es = [] := by
  match es with
  | [] => rfl
  | e :: es =>
    simp only [areStable, Bool.and_eq_true] at h
    simp [bodiesOfExprs, bodies_of_isStable e h.1, bodies_of_areStable es h.2]

end

theorem elementUpdate?_bodies {value op} (h : elementUpdate? env stmt = some (target, op, value)) :
    stmt.form.bodies = target.bodies ++ value.bodies := by
  unfold elementUpdate? at h
  split at h
  · rename_i e increments hform
    split at h
    · cases h
      simp [hform, Expr.bodies]
    · contradiction
  · rename_i target' op' value' hform
    obtain ⟨combined, -, h⟩ := Option.bind_eq_some_iff.1 h
    split at h
    · cases h
      simp [hform, bodiesOfExprs]
    · contradiction
  · contradiction

/-- A rule neither loses nor copies a function literal. -/
theorem Rewrites.bodies_perm (h : Rewrites env stmt r) (henv : env.Positive) :
    stmt.form.bodies.Perm (bodiesOfStmts r.before ++ r.form.bodies) := by
  cases h with
  | write hform => simp [hform, bodiesOfStmts, Env.writeCall, bodiesOfExprs, Expr.bodies]
  | @read _ _ _ _ _ target _ second? hform _ _ hnamed hbefore =>
    have hflag : bodiesOfExpr? (second?.filter fun target => !target.isBlank) =
        bodiesOfExpr? second? := by
      cases second? with
      | none => rfl
      | some second =>
        rw [Option.filter_some]
        split
        · rfl
        · rename_i hblank
          have hblank : second.isBlank = true := by simpa using hblank
          exact (bodies_of_isBlank hblank).symm
    rw [hform, bodies_of_declares hbefore, readForm_bodies, hflag, hnamed.bodies]
    simp only [bodies_assign, bodiesOfExprs, bodiesOfExprs_toList, Expr.bodies, append_nil,
      nil_append, append_assoc]
    refine perm_append_comm.trans (Perm.of_eq ?_)
    simp only [append_assoc]
  | define hform _ hnamed hbefore =>
    simp [hform, bodies_of_declares hbefore, bodies_of_named hnamed]
  | @complete targets span callee args spread _ _ hform _ hnamed hbefore =>
    obtain ⟨hvalues, hshape⟩ := henv.callShape (.call span callee args spread) targets.length
    rw [hform, bodies_of_declares hbefore, nil_append]
    refine Perm.trans (Perm.of_eq ?_)
      (completedForm_bodies hshape (hvalues.trans hnamed.length_eq) _ _ _ _).symm
    simp [bodies_of_named hnamed, bodiesOfExprs]
  | update hupdate hstable hreads =>
    obtain ⟨hbase, hkey⟩ := append_eq_nil_iff.1 (bodies_of_isStable _ hstable)
    rw [elementUpdate?_bodies hupdate, hreads.bodies]
    simp [hbase, hkey, Env.writeCall, bodiesOfExprs, Expr.bodies]
  | hoist hextracts hread hreads =>
    rw [hreads.bodies]
    refine hextracts.bodies.trans (perm_append_comm.trans (Perm.of_eq ?_))
    rw [hread]
    rfl

/-- A rule neither loses a function literal nor makes one. -/
theorem Rewrites.bodies (h : Rewrites env stmt r) (henv : env.Positive) {body} :
    body ∈ stmt.form.bodies ↔ (∃ x ∈ r.before, body ∈ x.form.bodies) ∨ body ∈ r.form.bodies := by
  rw [(h.bodies_perm henv).mem_iff, mem_append, mem_bodiesOfStmts]

end Rules

/-! ## Statements that stay flat -/

/-- Where no statement holds statements, none comes up that does, and all stand where they stood. -/
def Task.KeepsFlat : Task → Prop
  | .seq _ xs ys => ∀ place, (∀ x ∈ xs, x.isFlat = true ∧ x.span = place) →
    ∀ y ∈ ys, y.isFlat = true ∧ y.span = place
  | .stmt _ x y => x.isFlat = true → y.isFlat = true ∧ y.span = x.span
  | _ => True

theorem withoutInit_of_isFlat {x init : Stmt} {inner}
    (h : x.form.withoutInit = some (init, inner)) : x.isFlat = false := by
  obtain ⟨id, span, form⟩ := x
  cases StmtForm.opens h <;> rfl

theorem Walks.keepsFlat {env : Env} {task s s'} (h : Walks env task s s') : task.KeepsFlat := by
  induction h with
  | nil => exact fun _ h => h
  | hoist _ hform =>
    intro place hstmts
    obtain ⟨hstmt, -⟩ := (forall_mem_cons.1 hstmts).1
    simp [withoutInit_of_isFlat hform] at hstmt
  | post _ hform =>
    intro place hstmts
    obtain ⟨hstmt, -⟩ := (forall_mem_cons.1 hstmts).1
    simp [Stmt.isFlat, hform] at hstmt
  | split _ _ hnew _ ih =>
    intro place hstmts
    obtain ⟨⟨-, hplace⟩, hrest⟩ := forall_mem_cons.1 hstmts
    refine ih place (forall_mem_cons.2 ⟨⟨?_, hplace⟩,
      forall_mem_cons.2 ⟨⟨rfl, hplace⟩, hrest⟩⟩)
    rcases hnew with rfl | ⟨vars, -, rfl⟩ <;> rfl
  | replace _ hrewrites _ _ ih =>
    intro place hstmts
    obtain ⟨⟨hstmt, hplace⟩, hrest⟩ := forall_mem_cons.1 hstmts
    refine ih place (forall_mem_append.2 ⟨fun x hx => ?_, ?_⟩)
    · exact ⟨hrewrites.before_flat hx, (hrewrites.before_form hx).1.trans hplace⟩
    · exact forall_mem_cons.2 ⟨⟨hrewrites.flat hstmt, hplace⟩, hrest⟩
  | settle _ _ _ hsettles =>
    intro place hstmts
    obtain ⟨hstmt, -⟩ := (forall_mem_cons.1 hstmts).1
    cases hsettles with
    | values hform | names hform | call hform | callOnly hform => simp [Stmt.isFlat, hform] at hstmt
  | enter _ _ _ _ _ ih ih' =>
    intro place hstmts
    obtain ⟨⟨hstmt, hplace⟩, hrest⟩ := forall_mem_cons.1 hstmts
    obtain ⟨hout, hspan⟩ := ih hstmt
    exact forall_mem_cons.2 ⟨⟨hout, hspan.trans hplace⟩, ih' place hrest⟩
  | plain _ hform =>
    intro hstmt
    cases hform with
    | ret | jump => simp [Stmt.isFlat] at hstmt
    | _ => exact ⟨rfl, rfl⟩
  | block | cond | switch | loop | range =>
    intro hstmt
    simp [Stmt.isFlat] at hstmt
  | _ => trivial

end Lowering

end ScriptLowering
