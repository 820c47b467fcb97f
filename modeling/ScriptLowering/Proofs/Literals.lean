import ScriptLowering.Proofs.Innermost

/-!
# Parameters of function literals

A parameter of a function literal is known at every statement of the body, wherever the walk meets
the literal. Its binding reaches the statement; another binding of the same name that reaches it
stands in a wider scope, if the name is bound once by the literal and not again in its body. So the
parameter is the innermost.
-/

namespace ScriptLowering

open List

open Grammar

/-- A binding in a scope that starts earlier and does not end earlier is shadowed. -/
theorem Binding.shadows_of_wider {x y : Binding} (hstart : y.scope.start < x.scope.start)
    (hroom : x.scope.start < x.scope.stop) (hstop : x.scope.stop ≤ y.scope.stop) :
    x.shadows y = true := by
  have hwidth : x.scope.width < y.scope.width := by
    simp only [Span.width]
    omega
  simp [shadows, hwidth]

/-! ## What is bound beside a literal -/

section Beside

variable {file : Nat} {m m' : Mark} {node : TreeNode} {scope : Span} {params results : List Field}
  {body : Block} {b : Binder}

/-- A literal is met only where it stands. -/
theorem Act.DoneIn.literal (h : (Act.bind b).DoneIn (node.acts scope))
    (hmet : b.met = .literal params results body) : b = .ofLiteral params results body ∧
      ∃ span, node.Above (.expr (.funcLit span params results body)) := by
  refine Act.DoneIn.induct (M := fun _ node => b = .ofLiteral params results body ∧
    ∃ span, node.Above (.expr (.funcLit span params results body))) (fun hmem => ?_)
    (fun hvisit _ ih => ?_) h
  · cases TreeNode.bindsAt_of_mem hmem with
    | literal =>
      cases hmet
      exact ⟨rfl, _, .refl _⟩
    | _ => cases hmet
  · obtain ⟨hb, span, habove⟩ := ih
    exact ⟨hb, span, (TreeNode.above_visit hvisit).trans habove⟩

/-- The body of a literal starts behind the node in which it is met. -/
theorem Act.DoneIn.literal_bounds
    (h : (Act.bind (.ofLiteral params results body)).DoneIn (node.acts scope))
    (hplaced : Placed file node m m') :
    node.span.start < body.span.start ∧ body.span.stop ≤ node.span.stop := by
  obtain ⟨-, span, habove⟩ := h.literal rfl
  have hliteral := hplaced.above habove
  have houter := hplaced.bounds habove
  have hinner := hliteral.bounds (TreeNode.above_child
    (mem_append_right _ (mem_singleton_self (TreeNode.block body))))
  exact ⟨Nat.lt_of_le_of_lt houter.1 hliteral.formed, Nat.le_trans hinner.2 houter.2⟩

/-- What is bound in a scope around `body` or inside it, or in one that does not meet it. -/
def Binder.Beside (b : Binder) (params results : List Field) (body : Block) : Prop :=
  b = .ofLiteral params results body ∨ b.met ∈ metOfStmts body.stmts ∨
    (b.scope.start < body.span.start ∧ body.span.stop ≤ b.scope.stop) ∨
    ¬ b.scope.Meets body.span

/-- A part that the walk goes on to, beside the one with the literal. -/
theorem Grammar.Placed.beside_of_visit (hplaced : Placed file node m m')
    {inner inner' around child child'} (hvisit : .visit inner child ∈ node.acts scope)
    (hvisit' : .visit inner' child' ∈ node.acts around) (hstart : around.start ≤ node.span.start)
    (hstop : node.span.stop ≤ around.stop)
    (hbody : child.span.start < body.span.start ∧ body.span.stop ≤ child.span.stop)
    (hapart : ¬ child.span.Meets child'.span) (hb : (Act.bind b).DoneIn (child'.acts inner')) :
    b.Beside params results body := by
  have hbounds := hplaced.bounds (TreeNode.above_visit hvisit)
  rcases TreeNode.owns_of_done hb with ⟨owner, habove, howns⟩ | ⟨x, rfl, hbinds⟩
  · have hinner := (hplaced.above (TreeNode.above_visit hvisit')).bounds habove
    refine .inr (.inr (.inr fun hmeets => hapart ?_))
    rw [howns.scope_eq] at hmeets
    exact ⟨by have := hmeets.2; omega, by have := hmeets.1; omega⟩
  · refine .inr (.inr (.inl ?_))
    rw [hbinds.scope]
    rcases TreeNode.scope_of_visit hvisit' with rfl | ⟨rfl, -⟩ <;> omega

/-- What is bound in a node stands beside each literal that is met in it. -/
theorem Grammar.Placed.beside (h : (Act.bind (.ofLiteral params results body)).DoneIn
      (node.acts scope)) (hplaced : Placed file node m m') {around}
    (hstart : around.start ≤ node.span.start) (hstop : node.span.stop ≤ around.stop)
    (hb : (Act.bind b).DoneIn (node.acts around)) : b.Beside params results body := by
  refine Act.DoneIn.induct (M := fun _ node => ∀ {around}, Placed file node m m' →
    around.start ≤ node.span.start → node.span.stop ≤ around.stop →
    (Act.bind b).DoneIn (node.acts around) → b.Beside params results body)
    (fun {scope node} hmem around hplaced hstart hstop hb => ?_)
    (fun {scope node inner child} hvisit h ih around hplaced hstart hstop hb => ?_)
    h hplaced hstart hstop hb
  · -- the literal itself: its own names, and what is met in its body
    cases TreeNode.bindsAt_of_mem hmem
    rcases hb.of_cons with hself | ⟨_, _, hvisit, -⟩ | hb
    · cases hself
      exact .inl rfl
    · cases hvisit
    · rcases hb.of_cons with hself | ⟨_, _, hvisit, hb⟩ | hb
      · cases hself
      · cases hvisit
        exact .inr (.inl ((TreeNode.runs around (.block body) {}).recorded hb).1)
      · cases hb <;> contradiction
  · have hchild := hplaced.above (TreeNode.above_visit hvisit)
    have hbody := h.literal_bounds hchild
    have hbounds := hplaced.bounds (TreeNode.above_visit hvisit)
    cases hb with
    | own hmem =>
      refine .inr (.inr (.inl ?_))
      cases TreeNode.bindsAt_of_mem hmem with
      | names | targets =>
        exact ⟨Nat.lt_of_le_of_lt (Nat.le_trans hstart hbounds.1) hbody.1,
          Nat.le_trans hbody.2 (Nat.le_trans hbounds.2 hstop)⟩
      | range | fields =>
        exact ⟨Nat.lt_of_le_of_lt hbounds.1 hbody.1, Nat.le_trans hbody.2 hbounds.2⟩
      | @literal _ _ _ outer =>
        obtain rfl : child = .block outer := by
          simp [TreeNode.acts, Expr.acts] at hvisit
          exact hvisit.2
        exact hbody
    | @visit _ _ child' hvisit' hb =>
      by_cases hmeets : child.span.Meets child'.span
      · obtain rfl := (hplaced.above node.above_host).eq_of_above (TreeNode.mem_of_visit hvisit)
          (TreeNode.mem_of_visit hvisit') (.refl _) (.refl _) hmeets
        rcases TreeNode.scope_of_visit hvisit' with rfl | ⟨rfl, -⟩
        · exact ih hchild hbounds.1 hbounds.2 hb
        · exact ih hchild (by omega) (by omega) hb
      · exact hplaced.beside_of_visit hvisit hvisit' hstart hstop hbody hmeets hb

end Beside

/-! ## Parameters -/

/-- A name that occurs once has one type. -/
theorem eq_of_count_fst {vars : List (String × TypeExpr)} {name type type'}
    (honce : (vars.map Prod.fst).count name = 1) (h : (name, type) ∈ vars)
    (h' : (name, type') ∈ vars) : type' = type := by
  obtain ⟨front, rest, rfl⟩ := append_of_mem h
  simp only [map_append, map_cons, count_append, count_cons_self] at honce
  have hnone {l : List (String × TypeExpr)} (hl : (l.map Prod.fst).count name = 0) :
      (name, type') ∉ l :=
    fun hmem => count_eq_zero.1 hl (mem_map_of_mem (f := Prod.fst) hmem)
  rcases mem_append.1 h' with h' | h'
  · exact absurd h' (hnone (by omega))
  · rcases mem_cons.1 h' with hpair | h'
    · exact congrArg Prod.snd hpair
    · exact absurd h' (hnone (by omega))

section Parameters

variable {params results : List Field} {body : Block} {field : Field} {name : Name}

/-- The binding of a parameter of a literal. -/
def Field.binding (field : Field) (name : Name) (body : Block) : Binding :=
  ⟨name.val, Table.parameterType field.type.val, body.span, body.span.start⟩

theorem Binder.mem_ofLiteral (results : List Field) (body : Block) (before : Table)
    (hfield : field ∈ params) (hname : name ∈ field.names) (hblank : name.val ≠ "_") :
    field.binding name body ∈ (ofLiteral params results body).bindings before := by
  refine mem_map.2 ⟨(name.val, Table.parameterType field.type.val), ?_, rfl⟩
  refine mem_filter.2 ⟨mem_append_left _ (mem_flatMap.2 ⟨field, hfield, ?_⟩), ?_⟩
  · exact mem_map.2 ⟨name, hname, rfl⟩
  · simpa using hblank

/-- A name that the literal binds once has one binding there. -/
theorem Binder.eq_of_mem_ofLiteral {x y : Binding} {before before'}
    (hx : x ∈ (ofLiteral params results body).bindings before)
    (hy : y ∈ (ofLiteral params results body).bindings before') (hsame : y.name = x.name)
    (honce : (Field.boundNames params ++ Field.boundNames results).count x.name = 1) : y = x := by
  rw [← Table.fst_fieldVars, ← Table.fst_fieldVars, ← map_append] at honce
  obtain ⟨⟨name, type⟩, hvar, rfl⟩ := mem_map.1 hx
  obtain ⟨⟨name', type'⟩, hvar', rfl⟩ := mem_map.1 hy
  obtain rfl : name' = name := hsame
  obtain rfl := eq_of_count_fst honce (mem_of_mem_filter hvar) (mem_of_mem_filter hvar')
  rfl

variable {options : Token.ScanOptions} {index : Nat} {source : String} {file : SourceFile}

/-- A literal that is met is bound in a declaration, and its names are recorded. -/
theorem SourceFile.done_of_met (hmet : .literal params results body ∈ file.met) :
    (∃ node ∈ file.decls.map TreeNode.decl, ∃ scope,
      (Act.bind (.ofLiteral params results body)).DoneIn (node.acts scope)) ∧
    ∃ before, (Binder.ofLiteral params results body).bindings before ⊆
      (Table.ofFile file).bindings := by
  obtain ⟨func, hfunc, hmet⟩ := mem_flatMap.1 hmet
  have hnode : .decl (.func func) ∈ file.decls.map TreeNode.decl :=
    mem_map_of_mem (mem_functions.1 hfunc)
  obtain ⟨table, -, hruns⟩ := Table.ofFile_runs file default
  obtain ⟨b, hb, hliteral⟩ := ((TreeNode.decl (.func func)).runs default {}).of_met
    (mem_append_right _ hmet) rfl
  obtain ⟨rfl, -⟩ := hb.literal hliteral
  have hdone : (Act.bind (.ofLiteral params results body)).DoneIn
    (visits default (file.decls.map .decl)) := .visit (mem_map_of_mem hnode) hb
  exact ⟨⟨_, hnode, _, hb⟩, (hruns.recorded hdone).2⟩

/-- All that is bound in a file stands beside each literal that is met. -/
theorem SourceFile.beside_of_mem (hfile : ofSource options index source = .ok file)
    (hmet : .literal params results body ∈ file.met) {y} (hy : y ∈ (Table.ofFile file).bindings) :
    ∃ b before, y ∈ Binder.bindings b before ∧ b.Beside params results body := by
  obtain ⟨m, m', -, hdecls⟩ := ofSource_placed hfile
  obtain ⟨⟨node, hnode, scope, hliteral⟩, -⟩ := done_of_met hmet
  have hplaced := hdecls.mem Placed.local hnode
  obtain ⟨node', hnode', b, before, hb, hy⟩ := done_of_mem hy node.span
  refine ⟨b, before, hy, ?_⟩
  by_cases hmeets : node.span.Meets node'.span
  · obtain rfl := hdecls.eq_of_meets hnode hnode' hmeets
    exact hplaced.beside hliteral (Nat.le_refl _) (Nat.le_refl _) hb
  · have hbody := hliteral.literal_bounds hplaced
    rcases TreeNode.owns_of_done hb with ⟨owner, habove, howns⟩ | ⟨x, rfl, -⟩
    · have hinner := (hdecls.mem Placed.local hnode').bounds habove
      refine .inr (.inr (.inr fun hmeets' => hmeets ?_))
      rw [howns.scope_eq] at hmeets'
      exact ⟨by have := hmeets'.2; omega, by have := hmeets'.1; omega⟩
    · simp at hnode'

/-- A statement of the body takes room in it. -/
theorem SourceFile.body_contains (hfile : ofSource options index source = .ok file)
    (hmet : .literal params results body ∈ file.met) {y stmt} (hy : y ∈ body.stmts) {literal}
    (hin : Inside literal y stmt) :
    body.span.contains stmt.span = true ∧ stmt.span.start < stmt.span.stop := by
  obtain ⟨m, m', -, hdecls⟩ := ofSource_placed hfile
  obtain ⟨⟨node, hnode, scope, hliteral⟩, -⟩ := done_of_met hmet
  obtain ⟨-, span, habove⟩ := hliteral.literal rfl
  have hblock := ((hdecls.mem Placed.local hnode).above habove).child
    (mem_append_right _ (mem_singleton_self (TreeNode.block body)))
  have hstmt : (TreeNode.block body).Above (.stmt stmt) :=
    .child (mem_map_of_mem hy) hin.above
  exact ⟨hblock.contains hstmt, (Placed.local.covers (hblock.above hstmt)).room⟩

theorem SourceFile.lookup_parameter (hfile : ofSource options index source = .ok file)
    (hmet : .literal params results body ∈ file.met) (hfield : field ∈ params)
    (hname : name ∈ field.names) (hblank : name.val ≠ "_")
    (honce : (Field.boundNames params ++ Field.boundNames results).count name.val = 1)
    (hfresh : name.val ∉ (metOfStmts body.stmts).flatMap Met.names) {y stmt : Stmt}
    (hy : y ∈ body.stmts) {literal} (hin : Inside literal y stmt) :
    (Table.ofFile file).lookup name.val stmt.span = some (Table.parameterType field.type.val) := by
  obtain ⟨hcontains, hroom⟩ := body_contains hfile hmet hy hin
  obtain ⟨-, hstart, hstop⟩ := Span.contains_iff.1 hcontains
  obtain ⟨-, before, hrecorded⟩ := done_of_met hmet
  have hself := Binder.mem_ofLiteral results body before hfield hname hblank
  have hinnermost : Binding.innermost? ((Table.ofFile file).bindings.filter
      (·.isVisible name.val stmt.span)) = some (field.binding name body) := by
    apply Binding.innermost?_eq
    · rw [mem_filter, Binding.isVisible_iff]
      exact ⟨hrecorded hself, rfl, hcontains, hstart⟩
    · intro x hx
      obtain ⟨hx, hvisible⟩ := mem_filter.1 hx
      obtain ⟨hsame, hreaches⟩ := Binding.isVisible_iff.1 hvisible
      obtain ⟨b, before', hx, hbeside⟩ := beside_of_mem hfile hmet hx
      obtain ⟨hscope, -, hbound⟩ := Binder.of_mem hx
      rcases hbeside with rfl | hbody | hwider | hapart
      · exact .inl (Binder.eq_of_mem_ofLiteral hself hx hsame honce)
      · exact absurd (mem_flatMap.2 ⟨_, hbody, hsame ▸ hbound⟩) hfresh
      · rw [← hscope] at hwider
        exact .inr
          (Binding.shadows_of_wider hwider.1 (by dsimp only [Field.binding]; omega) hwider.2)
      · have hmeets := Span.meets_of_contains hreaches.1 hroom
        rw [hscope] at hmeets
        exact absurd (hmeets.mono (Nat.le_refl _) (Nat.le_refl _) hstart hstop) hapart
  simp only [Table.lookup, hinnermost]
  rfl

/-- Names that mean the same everywhere. -/
def fixedNames : List String := ["true", "false", "nil", "_"]

theorem Table.identType_eq_lookup {table : Table} {place name} (h : name ∉ fixedNames) :
    table.identType place name = table.lookup name place := by
  unfold Table.identType
  split <;> simp_all [fixedNames]

/-- A parameter of a function literal that the walk meets is known at every statement of the body,
if the literal binds the name once and its body does not bind it again. -/
theorem SourceFile.parameter_known (hfile : ofSource options index source = .ok file)
    (hmet : .literal params results body ∈ file.met) (hfield : field ∈ params)
    (hname : name ∈ field.names) (hfixed : name.val ∉ fixedNames)
    (honce : (Field.boundNames params ++ Field.boundNames results).count name.val = 1)
    (hfresh : name.val ∉ (metOfStmts body.stmts).flatMap Met.names) {y stmt : Stmt}
    (hy : y ∈ body.stmts) {literal : Bool} (hin : Inside literal y stmt) (span : Span) :
    (Table.ofFile file).resolver.typeOf (.ident span name.val) stmt.span =
      some ((Table.ofFile file).resolved (Table.parameterType field.type.val)) := by
  have hblank : name.val ≠ "_" := fun h => hfixed (by simp [h, fixedNames])
  have hlookup := lookup_parameter hfile hmet hfield hname hblank honce hfresh hy hin
  simp only [Table.resolver, Table.valueType, Table.identType_eq_lookup hfixed, hlookup,
    Option.map_some]

end Parameters

/-- The parameters and the only statement of a literal that is a package-level initializer. -/
def SourceFile.initialLiteral? (file : SourceFile) : Option (List Field × Stmt) :=
  match file.decls with
  | [.gen ⟨_, [.value _ _ [.funcLit _ params _ ⟨[stmt], _⟩]], _⟩] => some (params, stmt)
  | _ => none

/-- The parameter of a literal that is a package-level initializer is not known in its body. -/
theorem parameter_unknown_in_initializer :
    ((SourceFile.ofSource {} 0
      "package p\n\nvar h = func(m map[int]int) int \x7b\n\treturn m[1]\n\x7d\n").toOption.bind
        fun file => file.initialLiteral?.map fun p => (Field.boundNames p.1,
          ((Table.ofFile file).resolver.typeOf (.ident default "m") p.2.span).isSome)) =
      some (["m"], false) := by
  decide +kernel

/-- The literal that was met. -/
def Met.literal? : Met → Option (List Field × List Field × Block)
  | literal params results body => some (params, results, body)
  | _ => none

theorem Met.eq_of_literal? {met : Met} {ℓ} (h : met.literal? = some ℓ) :
    met = .literal ℓ.1 ℓ.2.1 ℓ.2.2 := by
  cases met <;> cases h
  rfl

/-- A literal among the arguments of a call, in a function with a parameter of the same name. -/
def argumentLiteral : String :=
  "package p\n\nfunc g(m int) \x7b\n\tcall(m, func(m map[int]int, n ...int) \x7b\n\t\t" ++
    "if n := m[1]; n > 0 \x7b\n\t\t\tm[1]++\n\t\t\x7d\n\t\x7d)\n\x7d\n"

theorem parameter_known_in_argument :
    ∃ file params results body field name y stmt,
      SourceFile.ofSource {} 0 argumentLiteral = .ok file ∧
      .literal params results body ∈ file.met ∧ field ∈ params ∧ name ∈ field.names ∧
      y ∈ body.stmts ∧ stmt ∈ y.form.inner ∧
      (Table.ofFile file).resolver.typeOf (.ident default name.val) stmt.span =
        some ((Table.ofFile file).resolved (Table.parameterType field.type.val)) := by
  have hrun : ((SourceFile.ofSource {} 0 argumentLiteral).toOption.bind fun file =>
      (file.met.findSome? Met.literal?).bind fun ℓ => ℓ.1.head?.bind fun field =>
      field.names.head?.bind fun name => ℓ.2.2.stmts.head?.bind fun y =>
      y.form.inner.getLast?.filter fun _ => decide (name.val ∉ fixedNames) &&
        (decide ((Field.boundNames ℓ.1 ++ Field.boundNames ℓ.2.1).count name.val = 1) &&
          decide (name.val ∉ (metOfStmts ℓ.2.2.stmts).flatMap Met.names))).isSome := by
    decide +kernel
  obtain ⟨stmt, hrun⟩ := Option.isSome_iff_exists.1 hrun
  obtain ⟨file, hfile, hrun⟩ := Option.bind_eq_some_iff.1 hrun
  obtain ⟨⟨params, results, body⟩, hliteral, hrun⟩ := Option.bind_eq_some_iff.1 hrun
  obtain ⟨field, hfield, hrun⟩ := Option.bind_eq_some_iff.1 hrun
  obtain ⟨name, hname, hrun⟩ := Option.bind_eq_some_iff.1 hrun
  obtain ⟨y, hy, hrun⟩ := Option.bind_eq_some_iff.1 hrun
  obtain ⟨hstmt, hnames⟩ := Option.filter_eq_some_iff.1 hrun
  simp only [Bool.and_eq_true, decide_eq_true_eq] at hnames
  obtain ⟨met, hmet, hliteral⟩ := exists_of_findSome?_eq_some hliteral
  rw [Met.eq_of_literal? hliteral] at hmet
  have hfile := eq_ok_of_toOption hfile
  have hfield := mem_of_mem_head? hfield
  have hname := mem_of_mem_head? hname
  have hy := mem_of_mem_head? hy
  have hstmt := mem_of_mem_getLast? hstmt
  exact ⟨file, params, results, body, field, name, y, stmt, hfile, hmet, hfield, hname, hy, hstmt,
    SourceFile.parameter_known hfile hmet hfield hname hnames.1 hnames.2.1 hnames.2.2 hy
      (.part hstmt .self) default⟩

end ScriptLowering
