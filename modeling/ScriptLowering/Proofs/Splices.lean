import ScriptLowering.Proofs.Conformance
import ScriptLowering.Proofs.Scanning

/-!
# Splices are foreseen

Before a header is entered, its initializer moves out if something would be put in front of it. The
prediction covers every rule, so an initializer that stays has nothing to put in front. Where
headers are as the grammar makes them, the lowering stops for want of a place at the post statement
of a loop only (`splices_foreseen`).
-/

namespace ScriptLowering

open Grammar List Lowering

/-! ## Every tree is finite -/

section Sizes

attribute [local grind =] TreeNode.name.sizeOf_spec TreeNode.type.sizeOf_spec
  TreeNode.expr.sizeOf_spec TreeNode.block.sizeOf_spec TreeNode.stmt.sizeOf_spec
  TreeNode.caseClause.sizeOf_spec TreeNode.commClause.sizeOf_spec TreeNode.decl.sizeOf_spec
  Decl.gen.sizeOf_spec Option.some.sizeOf_spec

attribute [local grind →] sizeOf_lt_of_mem

variable {node : TreeNode}

@[local grind →]
theorem sizeOf_lt_of_mem_fields {fields : List Field} (h : node ∈ fieldTreeNodes fields) :
    sizeOf node < sizeOf fields := by
  obtain ⟨⟨names, type⟩, hfield, h⟩ := mem_flatMap.1 h
  have hsize := sizeOf_lt_of_mem hfield
  simp [Field.treeNodes] at h hsize
  grind

@[local grind →]
theorem sizeOf_le_of_mem_type {type : TypeExpr} (h : node ∈ type.treeNodes) :
    sizeOf node ≤ sizeOf type := by
  fun_induction TypeExpr.treeNodes type <;> simp at h ⊢ <;> grind

theorem sizeOf_lt_of_mem_specs {specs : List Spec} (h : node ∈ specs.flatMap Spec.treeNodes) :
    sizeOf node < sizeOf specs := by
  obtain ⟨spec, hspec, h⟩ := mem_flatMap.1 h
  have hsize := sizeOf_lt_of_mem hspec
  cases spec <;> simp [Spec.treeNodes] at h hsize <;> grind

/-- A node is larger than those below it. -/
theorem TreeNode.sizeOf_children {child : TreeNode} (h : child ∈ node.children) :
    sizeOf child < sizeOf node := by
  cases node with
  | name | item => simp [children] at h
  | type x =>
    cases x
    simp [children] at h ⊢
    grind
  | expr e => cases e <;> simp [children, Expr.treeNodes] at h ⊢ <;> grind
  | stmt x =>
    obtain ⟨id, span, form⟩ := x
    cases form <;> simp [children, StmtForm.treeNodes] at h ⊢ <;> grind
  | decl x =>
    cases x with
    | gen x =>
      cases x
      have hspecs := sizeOf_lt_of_mem_specs h
      simp at hspecs ⊢
      omega
    | func x =>
      cases x
      simp [children, Decl.treeNodes] at h ⊢
      grind
  | caseClause x =>
    obtain ⟨exprs, body, span⟩ := x
    cases exprs <;> simp [children] at h ⊢ <;> grind
  | block x | commClause x =>
    cases x
    simp [children] at h ⊢
    grind

theorem TreeNode.grown (node : TreeNode) : node.Grown fun _ => True :=
  ⟨trivial, fun child _ => grown child⟩
termination_by sizeOf node
decreasing_by exact sizeOf_children ‹_›

end Sizes

/-! ## Headers -/

/-- Headers are as the grammar makes them, and only the post statement of a loop at a place with
`post` may be reported for want of a place. -/
def Norm.headed (post : Span → Prop) : Norm where
  span _ := True
  construct _ _ := True
  report d := ∀ place, d = unplacedPost place → post place
  strict := True
  post := post
  lenient h := absurd trivial h
  excused _ _ hd _ place h := absurd h (hd place)
  unplaced place hpost other h := by
    obtain rfl : place = other := congrArg Diagnostic.span h
    exact hpost
  illegal v _ place h := absurd h (unsupported_ne_unplacedPost v.construct v.span place)

/-- The header of a form that the grammar made. -/
theorem StmtForm.Headed.headFits {form : StmtForm} (h : form.Headed) {post}
    (hpost : ∀ init test x body, form = .loop init test (some x) body → post x.span) :
    form.HeadFits (.headed post) := by
  cases form with
  | cond => exact fun _ => ⟨h.1, by simp, h.2⟩
  | switch => exact fun _ => ⟨h, by simp⟩
  | loop init test next body =>
    refine fun _ => ⟨h.1, fun x hx => ⟨h.2 x hx, ?_⟩, by simp⟩
    obtain rfl := Option.mem_def.1 hx
    exact hpost _ _ _ _ rfl
  | _ => trivial

theorem FuncDecl.cause_headReports (func : FuncDecl) :
    ∀ d ∈ func.headReports, ∀ construct, d.cause ≠ .illegal construct := by
  refine forall_mem_append.2 ⟨?_, ?_⟩
  · split
    · split <;> simp
    · simp
  · split <;> simp

/-- The declaration holds a loop with a post statement at `place`. -/
def Decl.HasPost (decl : Decl) (place : Span) : Prop :=
  ∃ x init test post body, (TreeNode.decl decl).Above (.stmt x) ∧
    x.form = .loop init test (some post) body ∧ post.span = place

/-- The statements of every header are flat, and what follows an `else` is a condition or a
block. -/
def SourceFile.Headed (file : SourceFile) : Prop :=
  ∀ decl ∈ file.decls, ∀ x, (TreeNode.decl decl).Above (.stmt x) → x.form.Headed

theorem SourceFile.headed_of_ofSource {scan index source file}
    (hfile : SourceFile.ofSource scan index source = .ok file) : file.Headed := by
  intro decl hmem x hx
  obtain ⟨a, b, -, hdecls⟩ := SourceFile.ofSource_placed hfile
  have hplaced := hdecls.mem Placed.local (mem_map_of_mem hmem)
  have hshaped : x.form.Shaped := (hplaced.above hx).formed
  exact hshaped.headed

/-- The lowering of such a file stops for want of a place at the post statement of a loop only. -/
theorem SourceFile.Headed.hasPost {file : SourceFile} (hfile : file.Headed)
    {fuel resolver options place}
    (h : file.lowerWith fuel resolver options = .error (.fatal (unplacedPost place))) :
    ∃ decl ∈ file.decls, decl.HasPost place := by
  let norm := Norm.headed fun place => ∃ decl ∈ file.decls, decl.HasPost place
  have hfits (decl : Decl) (hmem : decl ∈ file.decls) : decl.Fits norm := by
    have hheads (x : Stmt) (hx : (TreeNode.decl decl).Above (.stmt x)) : x.form.HeadFits norm :=
      (hfile decl hmem x hx).headFits fun init test post body hform =>
        ⟨decl, hmem, x, init, test, post, body, hx, hform, rfl⟩
    have hspanned : decl.Spanned norm :=
      @TreeNode.Grown.spanned norm (fun _ _ _ => trivial) _ (TreeNode.grown _) hheads
    exact hspanned.fits
  have hheads (func : FuncDecl) : norm.Admits func.headReports := by
    rintro d hd _ rfl
    exact absurd rfl (func.cause_headReports _ hd .mapSubscript)
  exact (lowerWith_points hfits (fun func _ => hheads func) fuel resolver options).2 _ h place rfl

/-- Whatever a rule puts in front of a statement was foreseen. So nothing is put in front of an
initializer that stays in its header, or in that of an `else if`. Where headers are as the grammar
makes them, as they are in every parsed file, the lowering stops for want of a place at the post
statement of a loop only. -/
theorem splices_foreseen (env : Env) :
    (∀ stmt declared s r s', replaceStmt env declared stmt s = .ok (some r, s') →
      r.before ≠ [] → env.needsSplice stmt = true) ∧
    (∀ stmt init inner s s', stmt.form.withoutInit = some (init, inner) →
      hoistInit env stmt s = .ok (none, s') ∨
        stmt.isBranch = true ∧ wrapElse env stmt s = .ok (stmt, s') →
      ∀ declared t r t', replaceStmt env declared init t = .ok (some r, t') → r.before = []) ∧
    (∀ file : SourceFile, file.Headed → ∀ fuel options place,
      file.lowerWith fuel env.resolver options = .error (.fatal (unplacedPost place)) →
        ∃ decl ∈ file.decls, decl.HasPost place) ∧
    ∀ scan index source file, SourceFile.ofSource scan index source = .ok file → file.Headed := by
  have hforeseen {stmt declared s r s'} (h : replaceStmt env declared stmt s = .ok (some r, s'))
      (hbefore : r.before ≠ []) : env.needsSplice stmt = true :=
    ((replaceStmt_outcome declared s).of_ok h).1.needsSplice hbefore
  refine ⟨fun _ _ _ _ _ h => hforeseen h, ?_, fun _ hfile _ _ _ h => hfile.hasPost h,
    fun _ _ _ _ => SourceFile.headed_of_ofSource⟩
  intro stmt init inner s s' hinit hstays declared t r t' h
  have hhoists : env.hoists stmt = false := by
    rcases hstays with hhoist | ⟨hbranch, hwrap⟩
    · have hhoisted : Ensures (hoistInit env stmt) _ (fun _ => True) s := ensures_hoistInit
      exact (hhoisted.of_ok hhoist).2
    · have hwrapped : Ensures (wrapElse env stmt) _ (fun _ => True) s :=
        WalkRuns.ensures_wrapElse stmt
      rcases hwrapped.of_ok hwrap with ⟨-, -, hneeds⟩ | ⟨hblock, -, _, _, _, _, hform⟩
      · exact hoists_of_isBranch hbranch hneeds
      · rw [hblock] at hform
        contradiction
  have hneeds := needsSplice_of_hoists hinit hhoists
  by_contra hbefore
  rw [hforeseen h hbefore] at hneeds
  contradiction

/-- The report that a lowering stopped with. -/
def stoppedWith : Except Halt Lowered → Option Diagnostic
  | .error (.fatal report) => some report
  | _ => none

theorem eq_of_stoppedWith {result report} (h : stoppedWith result = some report) :
    result = .error (.fatal report) := by
  unfold stoppedWith at h
  split at h
  · obtain rfl := Option.some.inj h
    rfl
  · contradiction

/-- A loop whose initializer needs a declaration and whose post statement updates an element. -/
def stepping : String :=
  "func f(m map[int]int) \x7b\n\tfor v, ok := m[1]; ok; m[v]++ \x7b\n\t\x7d\n\x7d\n"

theorem splices_foreseen_stepping :
    ∃ file, SourceFile.ofSource {} 0 stepping = .ok file ∧
      file.lowerWith 60 (Table.ofFile file).resolver {} =
        .error (.fatal (unplacedPost ⟨0, 48, 54⟩)) ∧
      ∃ decl ∈ file.decls, decl.HasPost ⟨0, 48, 54⟩ := by
  have hrun : ((SourceFile.ofSource {} 0 stepping).toOption.filter fun file =>
      stoppedWith (file.lowerWith 60 (Table.ofFile file).resolver {}) =
        some (unplacedPost ⟨0, 48, 54⟩)).isSome = true := by decide +kernel
  obtain ⟨file, hfilter⟩ := Option.isSome_iff_exists.1 hrun
  obtain ⟨hparsed, hstopped⟩ := Option.filter_eq_some_iff.1 hfilter
  have hfile := eq_ok_of_toOption hparsed
  have hlower := eq_of_stoppedWith (of_decide_eq_true hstopped)
  obtain ⟨-, -, hposts, hheaded⟩ := splices_foreseen ⟨(Table.ofFile file).resolver, {}, []⟩
  exact ⟨file, hfile, hlower, hposts file (hheaded {} 0 stepping file hfile) 60 {} _ hlower⟩

/-- `if a {} else switch x, y := b {}`, which no source has: an `else` is parsed with a condition or
a block behind it. -/
def switchBehindElse : SourceFile where
  package := none
  imports := []
  decls := [.func
    { receiver := none
      name := ⟨"f", ⟨0, 5, 6⟩⟩
      params := []
      results := []
      body := some ⟨[⟨0, ⟨0, 11, 43⟩, .cond none (.ident ⟨0, 14, 15⟩ "a") ⟨[], ⟨0, 16, 18⟩⟩
        (some ⟨1, ⟨0, 24, 43⟩, .switch
          (some ⟨2, ⟨0, 31, 40⟩, .assign [.ident ⟨0, 31, 32⟩ "x", .ident ⟨0, 34, 35⟩ "y"] .define
            [.ident ⟨0, 39, 40⟩ "b"]⟩) none []⟩)⟩], ⟨0, 9, 45⟩⟩
      span := ⟨0, 0, 45⟩ }]
  nextId := 3

/-- A resolver for which every value is a number. -/
def allNumbers : Resolver where
  typeOf _ _ := some (.ofType (.named "int"))
  resultType _ _ _ := some (.ofType (.named "int"))

theorem TreeNode.above_iff (node below : TreeNode) :
    node.Above below ↔ below = node ∨ ∃ child ∈ node.children, child.Above below := by
  constructor
  · rintro (_ | ⟨hmem, habove⟩)
    · exact .inl rfl
    · exact .inr ⟨_, hmem, habove⟩
  · rintro (rfl | ⟨child, hmem, habove⟩)
    · exact .refl _
    · exact .child hmem habove

/-- The initializer of the switch has no place for its declarations, and there is no loop. -/
theorem splice_unplaced_behind_else :
    switchBehindElse.lowerWith 60 allNumbers {} = .error (.fatal (unplacedPost ⟨0, 31, 40⟩)) ∧
      ∀ decl ∈ switchBehindElse.decls, ∀ place, ¬ decl.HasPost place := by
  refine ⟨eq_of_stoppedWith (by decide +kernel), ?_⟩
  rintro decl hdecl place ⟨x, init, test, post, body, habove, hform, -⟩
  obtain rfl := mem_singleton.1 hdecl
  -- The statements of the tree are the condition, the switch and the definition.
  simp [fun x => TreeNode.above_iff (.decl x), fun x => TreeNode.above_iff (.name x),
    fun x => TreeNode.above_iff (.expr x), fun x => TreeNode.above_iff (.block x),
    fun x => TreeNode.above_iff (.stmt x), TreeNode.children, Decl.treeNodes, fieldTreeNodes,
    StmtForm.treeNodes, Expr.treeNodes] at habove
  rcases habove with rfl | rfl | rfl <;> cases hform

end ScriptLowering
