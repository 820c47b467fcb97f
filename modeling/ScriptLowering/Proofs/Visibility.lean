import ScriptLowering.Proofs.Recording
import ScriptLowering.Proofs.Scanning
import ScriptLowering.Proofs.Subscripts

/-!
# What is visible where

A scope table answers a question by the bindings that reach the place of the question. A statement
is asked about at its own span when a rule looks at it, and at the spans of the expressions in it
when those are lowered. The two answers differ only for the names that the initializer of the
statement defines: those become visible behind the start of the statement.

The scope of a binding is the span of a node, and of two nodes that meet one stands below the other.
If the owner of the scope stands above the statement, the binding reaches the whole statement or is
recorded behind it. If it stands below, it does not meet the expressions that the statement
evaluates.
-/

namespace ScriptLowering

open List

variable {name : String} {stmt : Stmt}

open Grammar Lowering

/-- The initializer of a statement with a header. -/
def StmtForm.init? : StmtForm → Option Stmt
  | .cond init .. | .switch init .. | .typeSwitch init .. | .loop init .. => init
  | _ => none

/-- The names that the initializer of a statement defines. -/
def StmtForm.headerNames (form : StmtForm) : List String :=
  (form.init?.map declaredNames).getD []

/-- The binding is one of those visible at a place. -/
def Binding.Reaches (x : Binding) (place : Span) : Prop :=
  x.scope.contains place = true ∧ x.visibleFrom ≤ place.start

theorem Binding.isVisible_iff {x : Binding} {place} :
    x.isVisible name place = true ↔ x.name = name ∧ x.Reaches place := by
  simp [isVisible, Reaches, and_assoc]

/-! ## Nodes inside expressions -/

theorem isFrame_of_mem_fields {fields node} (h : node ∈ fieldTreeNodes fields) :
    node.isFrame = false := by
  obtain ⟨field, -, h⟩ := mem_flatMap.1 h
  simp only [Field.treeNodes, mem_append, mem_map, mem_singleton] at h
  rcases h with ⟨name, -, rfl⟩ | rfl <;> rfl

/-- In a written type no names are bound. -/
theorem TypeExpr.isFrame_of_mem (type : TypeExpr) {node} (h : node ∈ type.treeNodes) :
    node.isFrame = false := by
  match type with
  | .named _ | .qualified .. => cases h
  | .pointer elem | .chan _ elem | .variadic elem => exact elem.isFrame_of_mem h
  | .array length elem =>
    rcases mem_append.1 h with h | h
    · obtain ⟨e, -, rfl⟩ := mem_map.1 h
      rfl
    · exact elem.isFrame_of_mem h
  | .map key elem =>
    rcases mem_append.1 h with h | h
    · exact key.isFrame_of_mem h
    · exact elem.isFrame_of_mem h
  | .func params results =>
    rcases mem_append.1 h with h | h <;> exact isFrame_of_mem_fields h
  | .struct fields | .interface fields => exact isFrame_of_mem_fields h

namespace TreeNode

variable {node child owner : TreeNode}

/-- Names are bound in an expression only in the body of a function literal. -/
theorem literal_of_isFrame (hmem : child ∈ node.children) (hnode : node.isFrame = false)
    (hchild : child.isFrame = true) :
    ∃ span params results body, node = .expr (.funcLit span params results body) ∧
      child = .block body := by
  have hframe {type : TypeExpr} (h : child ∈ type.treeNodes) : False := by
    simp [type.isFrame_of_mem h] at hchild
  have hfields {fields : List Field} (h : child ∈ fieldTreeNodes fields) : False := by
    simp [isFrame_of_mem_fields h] at hchild
  cases node with
  | name | item => cases hmem
  | type type => exact (hframe hmem).elim
  | expr e =>
    cases e with
    | funcLit span params results body =>
      simp only [children, Expr.treeNodes, mem_append, mem_singleton] at hmem
      rcases hmem with (h | h) | rfl
      · exact (hfields h).elim
      · exact (hfields h).elim
      · exact ⟨span, params, results, body, rfl, rfl⟩
    | _ => simp [children, Expr.treeNodes] at hmem <;> grind [isFrame]
  | decl declared =>
    cases declared with
    | func => simp [isFrame] at hnode
    | gen declared =>
      obtain ⟨spec, -, h⟩ := mem_flatMap.1 hmem
      cases spec <;> simp [Spec.treeNodes] at h <;> grind [isFrame]
  | _ => simp [isFrame] at hnode

end TreeNode

section Agrees

variable {file : Nat} {a b : Mark} {node owner : TreeNode} {stmt : Stmt} {e n : Expr}

/-- What names are bound in starts behind the expression that it stands in. -/
theorem Grammar.Placed.start_lt (h : Placed file node a b) (habove : node.Above owner)
    (hnode : node.isFrame = false) (howner : owner.isFrame = true) :
    node.span.start < owner.span.start := by
  induction habove generalizing a b with
  | refl => simp [hnode] at howner
  | @child _ next _ mem above ih =>
    have hnext := h.child mem
    have hle := (h.bounds (TreeNode.above_child mem)).1
    cases hframe : next.isFrame with
    | false => exact Nat.lt_of_le_of_lt hle (ih hnext hframe howner)
    | true =>
      obtain ⟨span, params, results, body, rfl, rfl⟩ := TreeNode.literal_of_isFrame mem hnode hframe
      exact Nat.lt_of_lt_of_le h.formed (hnext.bounds above).1

theorem Span.meets_of_contains {x y : Span} (h : x.contains y = true) (hroom : y.start < y.stop) :
    x.Meets y := by
  obtain ⟨-, hstart, hstop⟩ := Span.contains_iff.1 h
  exact ⟨Nat.lt_of_le_of_lt hstart hroom, Nat.lt_of_lt_of_le hroom hstop⟩

/-- A scope inside an expression does not contain what the expression evaluates. -/
theorem Grammar.Placed.not_contains (h : Placed file (.expr e) a b)
    (habove : (TreeNode.expr e).Above owner) (howner : owner.isFrame = true) (hn : n ∈ e.surface) :
    owner.span.contains n.span = false := by
  induction e using Expr.induct generalizing a b with
  | h e ih =>
    by_contra hcontains
    rw [Bool.not_eq_false] at hcontains
    have hplaced := Placed.local.covers (h.above (TreeNode.above_surface hn))
    have hmeets := Span.meets_of_contains hcontains hplaced.room
    rw [Expr.surface_eq] at hn
    rcases mem_cons.1 hn with rfl | hn
    · have hstart := h.start_lt habove rfl howner
      exact absurd (Span.contains_iff.1 hcontains).2.1 (Nat.not_le.2 hstart)
    · obtain ⟨part, hpart, hn⟩ := mem_surfaceOfExprs.1 hn
      cases habove with
      | refl => cases howner
      | child mem above =>
        have hmem := TreeNode.mem_children_of_parts hpart
        obtain rfl := h.eq_of_above mem hmem above (TreeNode.above_surface hn) hmeets
        simp [ih part hpart (h.child mem) above hn] at hcontains

/-- Nor does a scope beside the expression. -/
theorem Grammar.Placed.not_contains_beside (h : Placed file node a b) (he : .expr e ∈ node.children)
    {child : TreeNode} (hchild : child ∈ node.children) (habove : child.Above owner)
    (howner : owner.isFrame = true) (hn : n ∈ e.surface) : owner.span.contains n.span = false := by
  by_contra hcontains
  rw [Bool.not_eq_false] at hcontains
  have hroom := (Placed.local.covers ((h.child he).above (TreeNode.above_surface hn))).room
  obtain rfl := h.eq_of_above hchild he habove (TreeNode.above_surface hn)
    (Span.meets_of_contains hcontains hroom)
  simp [(h.child he).not_contains habove howner hn] at hcontains

theorem Stmt.above_unlabeled (x : Stmt) : (TreeNode.stmt x).Above (.stmt x.unlabeled) := by
  unfold Stmt.unlabeled
  split
  · exact .child (.tail _ (.head _)) (Stmt.above_unlabeled _)
  · exact .refl _

/-- A binding of a scope inside a statement that contains an expression of the statement becomes
visible behind it: the scope is that of an arm, and the expression is a label. -/
theorem Grammar.Placed.start_lt_visibleFrom (h : Placed file (.stmt stmt) a b) {child : TreeNode}
    (hchild : child ∈ (TreeNode.stmt stmt).children) (habove : child.Above owner) {binder}
    (howns : owner.Owns binder) (he : e ∈ stmt.form.exprs) (hn : n ∈ e.surface)
    (hcontains : owner.span.contains n.span = true) : n.span.start < binder.visibleFrom := by
  have hframe := howns.isFrame
  have hplaced := h.above ((TreeNode.above_exprs he).trans (TreeNode.above_surface hn))
  have hroom := (Placed.local.covers hplaced).room
  have hmeets := Span.meets_of_contains hcontains hroom
  rcases StmtForm.mem_exprs_nodes he with hmem | ⟨declared, hdecl, hmem⟩ | ⟨clause, hclause, hmem⟩
  · simp [h.not_contains_beside hmem hchild habove hframe hn] at hcontains
  · obtain rfl := h.eq_of_above hchild hdecl habove (.child hmem (TreeNode.above_surface hn)) hmeets
    cases habove with
    | refl => cases hframe
    | child mem above =>
      simp [(h.child hdecl).not_contains_beside hmem mem above hframe hn] at hcontains
  · have hlabel : .expr e ∈ (TreeNode.caseClause clause).children :=
      mem_append_left _ (mem_map_of_mem hmem)
    obtain rfl := h.eq_of_above hchild hclause habove (.child hlabel (TreeNode.above_surface hn))
      hmeets
    have harm := h.child hclause
    cases habove with
    | child mem above =>
      simp [harm.not_contains_beside hlabel mem above hframe hn] at hcontains
    | refl =>
      cases howns with
      | whole _ _ _ arm => exact absurd rfl (arm clause)
      | @part _ x visited =>
        have hx : x ∈ clause.body := by simpa [TreeNode.acts, visits, TreeNode.span] using visited
        have hbody : .stmt x ∈ (TreeNode.caseClause clause).children :=
          mem_append_right _ (mem_map_of_mem hx)
        have hinner := ((harm.child hlabel).bounds (TreeNode.above_surface hn)).2
        have hunlabeled := ((harm.child hbody).bounds x.above_unlabeled).1
        obtain ⟨-, -, -, -, hchildren⟩ := harm
        have hapart := (pairwise_append.1 (hchildren.pairwise Placed.local)).2.2 _
          (mem_map_of_mem hmem) _ (mem_map_of_mem hx)
        simp only [TreeNode.span] at hinner hunlabeled hapart hroom
        omega

/-- A statement that evaluates something has no label, so it stands below the label of another. -/
theorem Stmt.unlabeled_above (x : Stmt) (h : (TreeNode.stmt x).Above (.stmt stmt))
    (he : e ∈ stmt.form.exprs) : (TreeNode.stmt x.unlabeled).Above (.stmt stmt) := by
  unfold Stmt.unlabeled
  split
  · rename_i id span label inner
    refine Stmt.unlabeled_above inner ?_ he
    cases h with
    | refl => simp [StmtForm.exprs] at he
    | child mem above =>
      simp only [TreeNode.children, StmtForm.treeNodes, mem_cons, not_mem_nil,
        or_false] at mem
      rcases mem with rfl | rfl
      · cases above with
        | child mem => cases mem
      · exact above
  · exact h

/-- The statements that stand in the scope of a statement are its initializer and what follows an
`else`, and the latter binds nothing in it. -/
theorem headerNames_of_visit {around x}
    (hvisit : .visit stmt.span (.stmt x) ∈ (TreeNode.stmt stmt).acts around)
    (hshaped : stmt.form.Shaped) (he : e ∈ stmt.form.exprs)
    (hname : name ∈ declaredNames x.unlabeled) : name ∈ stmt.form.headerNames := by
  have hinit (hx : x.isSimple = true) : x.unlabeled = x := by
    obtain ⟨id, span, form⟩ := x
    cases form <;> simp_all [Stmt.isSimple, Stmt.unlabeled]
  have hother (hx : x.isBranch = true) : name ∉ declaredNames x.unlabeled := by
    obtain ⟨id, span, form⟩ := x
    cases form <;> simp_all [Stmt.isBranch, Stmt.unlabeled, declaredNames]
  obtain ⟨id, span, form⟩ := stmt
  cases form with
  | labeled => simp [StmtForm.exprs] at he
  | decl declared =>
    obtain ⟨spec, -, h⟩ := mem_flatMap.1 hvisit
    cases spec <;> simp [Spec.acts, visits] at h
  | _ =>
    simp [TreeNode.acts, Stmt.acts, visits, StmtForm.Shaped, StmtForm.headerNames,
      StmtForm.init?] at hvisit hshaped ⊢ <;> grind

/-- A binding of a scope around a statement that reaches an expression of the statement reaches the
statement, unless the initializer of the statement defines it. -/
theorem Grammar.Placed.visibleFrom_le (h : Placed file owner a b)
    (habove : owner.Above (.stmt stmt)) {binder} (howns : owner.Owns binder)
    (he : e ∈ stmt.form.exprs) (hn : n ∈ e.surface) (hvisible : binder.visibleFrom ≤ n.span.start) :
    binder.visibleFrom ≤ stmt.span.start ∨
      owner = .stmt stmt ∧ ∀ name ∈ binder.met.names, name ∈ stmt.form.headerNames := by
  have hstmt := h.above habove
  have habove' := (TreeNode.above_exprs he).trans (TreeNode.above_surface hn)
  have hroom := (Placed.local.covers (hstmt.above habove')).room
  have hinner := hstmt.bounds habove'
  cases howns with
  | whole _ start => exact .inl (start ▸ (h.bounds habove).1)
  | @part _ x visited _ start names =>
    cases habove with
    | refl => exact .inr ⟨rfl, fun name hname => headerNames_of_visit visited hstmt.formed he
        (names name hname)⟩
    | @child _ next _ mem above =>
      have hx := TreeNode.mem_of_visit_stmt visited
      by_cases hsame : next = .stmt x
      · subst hsame
        have hbelow := Stmt.unlabeled_above x above he
        exact .inl (start ▸ (((h.child hx).above x.above_unlabeled).bounds hbelow).1)
      · -- the statement stands before the one that records the binding, or behind it
        have hnext := (h.child mem).bounds above
        have hunlabeled := (h.child hx).bounds x.above_unlabeled
        have hroom' := (Placed.local.covers ((h.child hx).above x.above_unlabeled)).room
        obtain ⟨-, -, -, -, hchildren⟩ := h
        have hapart : ¬ next.span.Meets x.span := fun hmeets =>
          hsame (hchildren.eq_of_meets mem hx hmeets)
        simp only [Span.Meets, TreeNode.span] at *
        omega

end Agrees

/-- A binding that reaches an expression of a statement reaches the whole statement, unless the
initializer of the statement defines it. -/
theorem SourceFile.Holds.agrees {options : Token.ScanOptions} {index source file}
    (hfile : ofSource options index source = .ok file) (hstmt : file.Holds stmt) {e n}
    (he : e ∈ stmt.form.exprs) (hn : n ∈ e.surface) {x} (hx : x ∈ (Table.ofFile file).bindings)
    (hreaches : x.Reaches n.span) :
    x.Reaches stmt.span ∨ x.scope = stmt.span ∧ x.name ∈ stmt.form.headerNames := by
  obtain ⟨a, b, -, hdecls⟩ := ofSource_placed hfile
  obtain ⟨left, hdecl, owner, binder, before, hleft, howns, hx⟩ := owner_of_mem hx
  obtain ⟨hscope, hfrom, hname⟩ := Binder.of_mem hx
  obtain ⟨right, hother, hright⟩ := hstmt.above
  have hplaced := (hdecls.mem Placed.local hother).above hright
  have hinner := (TreeNode.above_exprs he).trans (TreeNode.above_surface hn)
  have hroom := (Placed.local.covers (hplaced.above hinner)).room
  have howner : x.scope = owner.span := hscope.trans howns.scope_eq
  obtain ⟨hcontains, hvisible⟩ := hreaches
  rw [howner] at hcontains
  rw [hfrom] at hvisible
  have hbounds := hplaced.bounds hinner
  have hmeets := (Span.meets_of_contains hcontains hroom).mono (Nat.le_refl _) (Nat.le_refl _)
    hbounds.1 hbounds.2
  have hround (habove : owner.Above (.stmt stmt)) : x.Reaches stmt.span ∨
      x.scope = stmt.span ∧ x.name ∈ stmt.form.headerNames := by
    have hdecl := (hdecls.mem Placed.local hdecl).above hleft
    rcases hdecl.visibleFrom_le habove howns he hn hvisible with hle | ⟨rfl, hnames⟩
    · exact .inl ⟨howner ▸ hdecl.contains habove, hfrom ▸ hle⟩
    · exact .inr ⟨howner, hnames _ hname⟩
  rcases hdecls.above_or_above hdecl hother hleft hright hmeets with habove | hbelow
  · exact hround habove
  · cases hbelow with
    | refl => exact hround (.refl _)
    | child mem above =>
      have hbehind := hplaced.start_lt_visibleFrom mem above howns he hn hcontains
      omega

/-! ## Types -/

namespace Table

/-- The type of the name that was visible before a statement: by the bindings that reach the
statement and stand before its start. -/
def lookupBefore (table : Table) (name : String) (stmt : Stmt) : Option TypeExpr :=
  { table with bindings := table.bindings.filter (·.visibleFrom < stmt.span.start) }.lookup name
    stmt.span

end Table

/-! ## Questions at a statement and inside it -/

section Questions

variable {options : Token.ScanOptions} {index : Nat} {source : String} {file : SourceFile}
  {stmt : Stmt} {e n : Expr}

/-- A name that the initializer of the statement does not define is looked up alike at the statement
and at an expression that the statement evaluates. -/
theorem SourceFile.Holds.lookup_eq (hfile : ofSource options index source = .ok file)
    (hstmt : file.Holds stmt) (he : e ∈ stmt.form.exprs) (hn : n ∈ e.surface)
    (hname : name ∉ stmt.form.headerNames) :
    (Table.ofFile file).lookup name stmt.span = (Table.ofFile file).lookup name n.span := by
  have hfilter : (Table.ofFile file).bindings.filter (·.isVisible name stmt.span) =
      (Table.ofFile file).bindings.filter (·.isVisible name n.span) := by
    refine filter_congr fun x hx => ?_
    rw [Bool.eq_iff_iff, Binding.isVisible_iff, Binding.isVisible_iff]
    refine and_congr_right fun hx' => ⟨fun h => ?_, fun h => ?_⟩
    · -- The expression stands inside the statement.
      obtain ⟨a, b, -, hdecls⟩ := ofSource_placed hfile
      have hcontains := (hstmt.placed hdecls).contains
        ((TreeNode.above_exprs he).trans (TreeNode.above_surface hn))
      have hstart := (Span.contains_iff.1 hcontains).2.1
      exact ⟨Span.contains_trans h.1 hcontains, Nat.le_trans h.2 hstart⟩
    · rcases hstmt.agrees hfile he hn hx h with h | ⟨-, h⟩
      · exact h
      · exact absurd (hx' ▸ h) hname
  unfold Table.lookup
  rw [hfilter]

/-- Whether a subscript reads a container gets one answer at the statement that evaluates it and at
its own place, unless the initializer of the statement defines a name in the operand. -/
theorem SourceFile.container_tests_agree (hfile : ofSource options index source = .ok file)
    (hstmt : file.Holds stmt) (he : e ∈ stmt.form.exprs) {span : Span} {base key : Expr}
    (hindex : .index span base key ∈ e.surface)
    (hnames : ∀ place name, .ident place name ∈ base.surface → name ∉ stmt.form.headerNames) :
    (Table.ofFile file).resolver.isContainerRead stmt.span (.index span base key) =
      (Table.ofFile file).resolver.isContainerRead span (.index span base key) := by
  have halike : (Table.ofFile file).LooksUpAlike stmt.span span base.surface := by
    intro place name hname
    exact hstmt.lookup_eq hfile he hindex (hnames place name hname)
  simp only [Resolver.isContainerRead, Table.resolver,
    ((Alike.refl base).valueType_and_callType halike).1]

/-- A name is looked up inside a statement without initializer as it is at the start of the
statement. So it is the name that was visible before, if no binding of it becomes visible there. -/
theorem SourceFile.lookup_inside (hfile : ofSource options index source = .ok file)
    (hstmt : file.Holds stmt) (hinit : stmt.form.init? = none) (he : e ∈ stmt.form.exprs)
    {place : Span} {name : String} (hname : .ident place name ∈ e.surface) :
    (Table.ofFile file).lookup name place = (Table.ofFile file).lookup name stmt.span ∧
      ((∀ x ∈ (Table.ofFile file).bindings, x.name = name → x.visibleFrom ≠ stmt.span.start) →
        (Table.ofFile file).lookup name place = (Table.ofFile file).lookupBefore name stmt) := by
  have hlookup :
      (Table.ofFile file).lookup name stmt.span = (Table.ofFile file).lookup name place :=
    hstmt.lookup_eq hfile he hname (by simp [StmtForm.headerNames, hinit])
  refine ⟨hlookup.symm, fun hnone => hlookup.symm.trans ?_⟩
  unfold Table.lookupBefore Table.lookup
  dsimp only
  rw [filter_filter]
  congr 2
  refine filter_congr fun x hx => ?_
  rw [Bool.eq_iff_iff, Bool.and_eq_true, Binding.isVisible_iff, decide_eq_true_eq]
  refine ⟨fun h => ⟨h, ?_⟩, fun h => h.1⟩
  exact Nat.lt_of_le_of_ne h.2.2 (hnone x hx h.1)

end Questions

/-- The element compared in the condition of a statement. -/
def comparedElement? (stmt : Stmt) : Option (Span × Expr × Expr) :=
  match stmt.form with
  | .cond _ (.binary _ _ (.index span base key) _) _ _ => some (span, base, key)
  | _ => none

theorem mem_of_comparedElement? {span base key}
    (h : comparedElement? stmt = some (span, base, key)) :
    ∃ e ∈ stmt.form.exprs, .index span base key ∈ e.surface := by
  unfold comparedElement? at h
  split at h
  · rename_i hform
    cases h
    exact ⟨_, by rw [hform]; exact mem_singleton_self _, by simp [Expr.surface]⟩
  · contradiction

/-- The two tests of the element compared in the condition of the only statement of a source. -/
def elementTests (source : String) : Option (Bool × Bool) := do
  let (file, stmt) ← parsedStmt? source [0]
  let (span, base, key) ← comparedElement? stmt
  let resolver := (Table.ofFile file).resolver
  return (resolver.isContainerRead stmt.span (.index span base key),
    resolver.isContainerRead span (.index span base key))

/-- A map that the initializer defines is not known at the start of the statement. -/
theorem container_tests_differ_behind_initializer :
    elementTests ("package p\n\nfunc h() map[int]int \x7b\n\treturn nil\n\x7d\n\n" ++
      "func g() \x7b\n\tif m := h(); m[1] > 0 \x7b\n\t\x7d\n\x7d\n") = some (false, true) := by
  decide +kernel

/-- A map beside an initializer that defines another name. -/
def besideInitializer : String :=
  "package p\n\nfunc g(m map[int]int) \x7b\n\tif n := 1; m[n] > 0 \x7b\n\t\x7d\n\x7d\n"

theorem container_tests_agree_beside_initializer :
    ∃ file stmt span base key, parsedStmt? besideInitializer [0] = some (file, stmt) ∧
      comparedElement? stmt = some (span, base, key) ∧
      (Table.ofFile file).resolver.isContainerRead stmt.span (.index span base key) =
        (Table.ofFile file).resolver.isContainerRead span (.index span base key) := by
  have hrun : ((parsedStmt? besideInitializer [0]).bind fun p => (comparedElement? p.2).filter
      fun q => q.2.1.surface.all fun e => !e.name?.any p.2.form.headerNames.contains).isSome := by
    decide +kernel
  obtain ⟨⟨span, base, key⟩, hrun⟩ := Option.isSome_iff_exists.1 hrun
  obtain ⟨⟨file, stmt⟩, hparsed, hrun⟩ := Option.bind_eq_some_iff.1 hrun
  obtain ⟨helement, hnames⟩ := Option.filter_eq_some_iff.1 hrun
  obtain ⟨hfile, hholds⟩ := holds_of_parsedStmt? hparsed
  obtain ⟨e, he, hindex⟩ := mem_of_comparedElement? helement
  refine ⟨file, stmt, span, base, key, hparsed, helement, ?_⟩
  refine SourceFile.container_tests_agree hfile hholds he hindex fun place name hname => ?_
  have hfresh := all_eq_true.1 hnames _ hname
  simpa [Expr.name?] using hfresh

/-- The last name in the value of a definition. -/
def lastOperand? (stmt : Stmt) : Option (Span × String) :=
  match stmt.form with
  | .assign _ .define [value] => value.surface.reverse.findSome? fun e =>
    e.name?.map fun name => (e.span, name)
  | _ => none

theorem mem_of_lastOperand? {place} (h : lastOperand? stmt = some (place, name)) :
    stmt.form.init? = none ∧ ∃ e ∈ stmt.form.exprs, .ident place name ∈ e.surface := by
  unfold lastOperand? at h
  split at h
  · rename_i targets value hform
    obtain ⟨e, he, hname⟩ := exists_of_findSome?_eq_some h
    obtain ⟨name', hname', hpair⟩ := Option.map_eq_some_iff.1 hname
    cases hpair
    refine ⟨by rw [hform]; rfl, value, by simp [hform, StmtForm.exprs], ?_⟩
    cases e with
    | ident span name =>
      cases hname'
      exact mem_reverse.1 he
    | _ => simp [Expr.name?] at hname'
  · contradiction

/-- Whether the last name in the value of a definition is found to be a map, and whether it was one
before. -/
def operandIsMap (source : String) (path : List Nat) : Option (Option Bool × Option Bool) := do
  let (file, stmt) ← parsedStmt? source path
  let (place, name) ← lastOperand? stmt
  return (((Table.ofFile file).lookup name place).map TypeExpr.isMap,
    ((Table.ofFile file).lookupBefore name stmt).map TypeExpr.isMap)

/-- In `m := m[1]` the operand is the new variable. -/
theorem operand_is_new_variable :
    operandIsMap
      "package p\n\nfunc g(m map[int]int) \x7b\n\t\x7b\n\t\tm := m[1]\n\t\tm++\n\t\x7d\n\x7d\n"
      [0, 0] = some (some false, some true) := by
  decide +kernel

/-- In `x := h(x)` with `h` unknown, no type is found for the new variable. -/
def fromUnknown : String :=
  "package p\n\nfunc g(x int) \x7b\n\t\x7b\n\t\tx := h(x)\n\t\tx++\n\t\x7d\n\x7d\n"

theorem operand_is_parameter :
    ∃ file stmt place name, parsedStmt? fromUnknown [0, 0] = some (file, stmt) ∧
      lastOperand? stmt = some (place, name) ∧
      (Table.ofFile file).lookup name place = (Table.ofFile file).lookupBefore name stmt := by
  have hrun : ((parsedStmt? fromUnknown [0, 0]).bind fun p => (lastOperand? p.2).filter
      fun q => (Table.ofFile p.1).bindings.all fun x =>
        x.name != q.2 || x.visibleFrom != p.2.span.start).isSome := by
    decide +kernel
  obtain ⟨⟨place, name⟩, hrun⟩ := Option.isSome_iff_exists.1 hrun
  obtain ⟨⟨file, stmt⟩, hparsed, hrun⟩ := Option.bind_eq_some_iff.1 hrun
  obtain ⟨hoperand, hnone⟩ := Option.filter_eq_some_iff.1 hrun
  obtain ⟨hfile, hholds⟩ := holds_of_parsedStmt? hparsed
  obtain ⟨hinit, e, he, hname⟩ := mem_of_lastOperand? hoperand
  refine ⟨file, stmt, place, name, hparsed, hoperand, ?_⟩
  refine (SourceFile.lookup_inside hfile hholds hinit he hname).2 fun x hx hxname => ?_
  have hfresh := all_eq_true.1 hnone x hx
  simpa [hxname] using hfresh

end ScriptLowering
