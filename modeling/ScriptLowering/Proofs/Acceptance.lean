import ScriptLowering.Proofs.Conformance

/-!
# What the check and the lowering accept

The check reads a file as it was written, while the lowering looks at a statement only when its
walk arrives there, after the rules have moved initializers, loop posts, returned values and
`else if` branches around. Both accept the same files all the same, up to the failures that
only the lowering can have: a missing type, and an element of a map without a place for its
temporary.

A walk that comes to its end has seen every statement in its own form, so the tree was legal
(`Walks.legal`). A legal tree fits the norm that forbids every construct, and a lowering keeps
within it.
-/

namespace ScriptLowering

open List

variable {s s' : State} {func : FuncDecl}

/-! ## Violations part by part -/

@[simp] theorem violationsOfExprs_eq_nil {es} :
    violationsOfExprs es = [] ↔ ∀ e ∈ es, e.violations = [] := by
  induction es with
  | nil => simp [violationsOfExprs]
  | cons e es ih => simp [violationsOfExprs, ih]

@[simp] theorem violationsOfStmts_eq_nil {stmts} :
    violationsOfStmts stmts = [] ↔ ∀ stmt ∈ stmts, stmt.violations = [] := by
  induction stmts with
  | nil => simp [violationsOfStmts]
  | cons stmt stmts ih => simp [violationsOfStmts, ih]

@[simp] theorem violationsOfStmt?_eq_nil {stmt} :
    violationsOfStmt? stmt = [] ↔ ∀ x ∈ stmt, x.violations = [] := by
  cases stmt <;> simp [violationsOfStmt?]

@[simp] theorem violationsOfArms_eq_nil {clauses} : violationsOfArms clauses = [] ↔
      ∀ clause ∈ clauses, ∀ stmt ∈ clause.body, stmt.violations = [] := by
  induction clauses with
  | nil => simp [violationsOfArms]
  | cons clause clauses ih =>
    obtain ⟨exprs, body, span⟩ := clause
    simp [violationsOfArms, ih]

@[simp] theorem violationsOfLabels_eq_nil {clauses} : violationsOfLabels clauses = [] ↔
      ∀ clause ∈ clauses, ∀ exprs ∈ clause.exprs, ∀ e ∈ exprs, e.violations = [] := by
  induction clauses with
  | nil => simp [violationsOfLabels]
  | cons clause clauses ih =>
    obtain ⟨exprs, body, span⟩ := clause
    cases exprs <;> simp [violationsOfLabels, ih]

/-- A statement is legal when its own form is and the statements inside it are. -/
theorem Stmt.violations_eq_nil (stmt : Stmt) :
    stmt.violations = [] ↔
      stmt.ownViolations = [] ∧ ∀ part ∈ stmt.form.inner, part.violations = [] := by
  obtain ⟨id, span, form⟩ := stmt
  cases form with
  | block block =>
    obtain ⟨stmts, inner⟩ := block
    simp [Stmt.violations, Stmt.ownViolations, StmtForm.inner]
  | cond init test body otherwise | loop init test post body =>
    obtain ⟨stmts, inner⟩ := body
    simp only [Stmt.violations, Stmt.ownViolations, StmtForm.inner, append_eq_nil_iff,
      violationsOfStmts_eq_nil, violationsOfStmt?_eq_nil, Option.mem_def]
    grind
  | switch init tag clauses =>
    simp only [Stmt.violations, Stmt.ownViolations, StmtForm.inner, append_eq_nil_iff,
      violationsOfArms_eq_nil, violationsOfStmt?_eq_nil, Option.mem_def]
    grind
  | range key value defines subject body =>
    obtain ⟨stmts, inner⟩ := body
    simp [Stmt.violations, Stmt.ownViolations, StmtForm.inner, and_assoc]
  | jump jump label => cases jump <;> simp [Stmt.ownViolations, StmtForm.inner]
  | labeled | typeSwitch | select => simp [Stmt.violations, Stmt.ownViolations]
  | _ => simp [Stmt.ownViolations, StmtForm.inner]

namespace Lowering

/-! ## Walks that come to their end -/

/-- The tree that a task was given is legal. A single statement is walked when its own form was
found to be legal. -/
def Task.Legal : Task → Prop
  | .seq _ stmts _ => ∀ x ∈ stmts, x.violations = []
  | .stmt _ x _ => x.ownViolations = [] → x.violations = []
  | .header _ x _ | .branch _ x _ => violationsOfStmt? x = []
  | .arms _ clauses _ => violationsOfArms clauses = []
  | .each .. | .bodies .. => True

section Walks

variable {env : Env} {stmt : Stmt}

/-- A statement that holds no statements is as legal as its own form. -/
theorem violations_of_inner (hinner : stmt.form.inner = []) (hown : stmt.ownViolations = []) :
    stmt.violations = [] :=
  stmt.violations_eq_nil.2 ⟨hown, by simp [hinner]⟩

/-- A walk that comes to its end was given a legal tree. -/
theorem Walks.legal {task} (h : Walks env task s s') : task.Legal := by
  induction h with
  | nil => simp [Task.Legal]
  | noHeader | noBranch | armsNil => rfl
  | eachNil | eachCons | bodiesNil | bodiesCons => trivial
  | hoist hown hform _ ih =>
    obtain ⟨hblock, hrest⟩ := forall_mem_cons.1 ih
    obtain ⟨hinit, hinner⟩ := forall_mem_cons.1 ((Stmt.violations_eq_nil _).1 hblock).2
    have hinner := forall_mem_singleton.1 hinner
    refine forall_mem_cons.2 ⟨(Stmt.violations_eq_nil _).2 ⟨hown, ?_⟩, hrest⟩
    rw [withoutInit_inner hform]
    exact forall_mem_cons.2 ⟨hinit, ((Stmt.violations_eq_nil _).1 hinner).2⟩
  | post hown hform _ _ _ _ _ ihpost ih =>
    obtain ⟨-, ih⟩ := forall_mem_append.1 ih
    obtain ⟨hloop, hrest⟩ := forall_mem_cons.1 ih
    have hinner := ((Stmt.violations_eq_nil _).1 hloop).2
    refine forall_mem_cons.2 ⟨(Stmt.violations_eq_nil _).2 ⟨hown, ?_⟩, hrest⟩
    rw [hform]
    simp only [StmtForm.inner, Option.toList_some, forall_mem_append] at hinner ⊢
    exact ⟨⟨hinner.1.1, ihpost⟩, hinner.2⟩
  | split hown hform _ _ ih =>
    obtain ⟨-, ih⟩ := forall_mem_cons.1 ih
    obtain ⟨-, hrest⟩ := forall_mem_cons.1 ih
    exact forall_mem_cons.2 ⟨violations_of_inner (by rw [hform]; rfl) hown, hrest⟩
  | replace hown hrewrites _ _ ih =>
    obtain ⟨-, ih⟩ := forall_mem_append.1 ih
    obtain ⟨hstmt, hrest⟩ := forall_mem_cons.1 ih
    refine forall_mem_cons.2 ⟨(Stmt.violations_eq_nil _).2 ⟨hown, ?_⟩, hrest⟩
    rw [← hrewrites.inner]
    exact ((Stmt.violations_eq_nil _).1 hstmt).2
  | settle hown _ _ hsettles _ _ _ ih =>
    refine forall_mem_cons.2 ⟨violations_of_inner ?_ hown, ih⟩
    cases hsettles with
    | values hret | names hret | call hret | callOnly hret =>
      rw [hret]
      rfl
  | enter hown _ _ _ _ ihstmt ih => exact forall_mem_cons.2 ⟨ihstmt hown, ih⟩
  | plain _ hplain => exact fun hown => violations_of_inner (by cases hplain <;> rfl) hown
  | block _ ih => exact fun hown => (Stmt.violations_eq_nil _).2 ⟨hown, ih⟩
  | cond _ _ _ _ _ ihinit _ ihbody ihotherwise =>
    intro hown
    simp only [Stmt.violations, append_eq_nil_iff]
    exact ⟨⟨⟨hown, ihinit⟩, violationsOfStmts_eq_nil.2 ihbody⟩, ihotherwise⟩
  | switch _ _ _ _ ihinit _ iharms =>
    intro hown
    simp only [Stmt.violations, append_eq_nil_iff]
    exact ⟨⟨append_eq_nil_iff.1 hown, ihinit⟩, iharms⟩
  | loop _ _ _ _ _ ihinit _ ihpost ihbody =>
    intro hown
    simp only [Stmt.violations, append_eq_nil_iff]
    exact ⟨⟨⟨hown, ihinit⟩, ihpost⟩, violationsOfStmts_eq_nil.2 ihbody⟩
  | range _ _ _ _ _ _ ihbody => exact fun hown => (Stmt.violations_eq_nil _).2 ⟨hown, ihbody⟩
  | header hown _ _ ih => exact ih hown
  | inPlace hown hrewrites =>
    refine violations_of_inner ?_ hown
    cases hrewrites with
    | write hform | read hform | define hform | complete hform =>
      rw [hform]
      rfl
    | update _ _ hreads | hoist _ _ hreads =>
      obtain ⟨_, _, hbefore, -⟩ := hreads
      simp at hbefore
  | branch hown _ _ ih => exact ih hown
  | wrap _ _ ih => simpa [Task.Legal, Stmt.violations] using ih rfl
  | armsCons _ _ _ _ _ ihbody ihrest =>
    exact append_eq_nil_iff.2 ⟨violationsOfStmts_eq_nil.2 ihbody, ihrest⟩

end Walks

end Lowering

/-! ## Functions and files -/

theorem FuncDecl.headReports_eq_nil :
    func.headReports = [] ↔
      (∀ receiver ∈ func.receiver, Field.totalArity receiver ≤ 1) ∧
        ∀ field ∈ func.results, field.type.val.isPointer = false := by
  unfold headReports
  rw [append_eq_nil_iff]
  refine and_congr ?_ ?_
  · cases func.receiver <;> simp
  · split
    · rename_i field hfield
      have hmem := mem_of_find?_eq_some hfield
      have hpointer : field.type.val.isPointer = true := by simpa using find?_some hfield
      refine iff_of_false (by simp) fun h => ?_
      simp [h field hmem] at hpointer
    · rename_i h
      simpa using h

theorem Decl.reports_func_eq_nil :
    (Decl.func func).reports = [] ↔ func.headReports = [] ∧
      ∀ body ∈ func.body, ∀ x ∈ body.stmts, x.violations = [] := by
  cases hbody : func.body <;> simp [Decl.reports, hbody]

namespace Lowering

/-- A lowered head has no receiver, and the results it keeps are results of the function. -/
theorem lowerHead_headReports (h : func.headReports = []) :
    (lowerHead func).func.headReports = [] := by
  rw [FuncDecl.headReports_eq_nil] at h ⊢
  refine ⟨by simp [lowerHead], ?_⟩
  intro field hfield
  obtain ⟨⟨entry, result⟩, hkept, rfl⟩ := mem_map.1 hfield
  exact h.2 _ (of_mem_zip (mem_filter.1 hkept).1).2

theorem WalksDecl.reports {env decl decl'} (h : WalksDecl env decl decl' s s') :
    decl.reports = [] ∧ ∀ func, decl' = .func func → func.headReports = [] := by
  cases h with
  | head hbody hhead =>
    refine ⟨Decl.reports_func_eq_nil.2 ⟨hhead, by simp [hbody]⟩, ?_⟩
    rintro _ ⟨⟩
    exact lowerHead_headReports hhead
  | func hbody _ _ hwalks hhead =>
    have hstmts := (forall_mem_append.1 hwalks.legal).2
    refine ⟨Decl.reports_func_eq_nil.2 ⟨hhead, by simpa [hbody] using hstmts⟩, ?_⟩
    rintro _ ⟨⟩
    exact lowerHead_headReports hhead
  | gen _ _ hlegal => exact ⟨by simp [Decl.reports, hlegal], nofun⟩

theorem WalksDecls.reports {env decls decls'} (h : WalksDecls env decls decls' s s') :
    (∀ decl ∈ decls, decl.reports = []) ∧ ∀ func, .func func ∈ decls' → func.headReports = [] := by
  induction h with
  | nil => simp
  | cons h _ ih =>
    obtain ⟨hreports, hheads⟩ := h.reports
    refine ⟨forall_mem_cons.2 ⟨hreports, ih.1⟩, fun func hfunc => ?_⟩
    rcases mem_cons.1 hfunc with hfunc | hfunc
    · exact hheads func hfunc.symm
    · exact ih.2 func hfunc

end Lowering

/-- A declaration without reports fits the norm of legal trees, and its head is legal. -/
theorem Decl.reports_eq_nil {decl : Decl} :
    decl.reports = [] ↔ decl.Fits .legal ∧ ∀ func, decl = .func func → func.headReports = [] := by
  cases decl with
  | func func =>
    have hbody (body : Block) : body.Fits .legal ↔ ∀ x ∈ body.stmts, x.violations = [] := by
      have hspan : Norm.legal.span body.span := trivial
      rw [Block.fits_iff, and_iff_right hspan, ← stmtsFit_iff, ← violationsOfStmts_eq_nil]
      exact stmtsFit_legal _
    simp only [Decl.reports_func_eq_nil, Decl.Fits, hbody, Decl.func.injEq, forall_eq', and_comm]
  | gen decl =>
    simp only [Decl.reports, map_eq_nil_iff, Decl.Fits, reduceCtorEq, false_implies,
      implies_true, and_true]
    exact (specsFit_legal _).symm

open Lowering

/-- The check and the lowering agree on what is legal. A lowering that succeeds was given a file
the check accepts and gives one; on a file the check accepts it fails only for want of a type,
or at an element of a map that has no place for its temporary. -/
theorem SourceFile.check_agrees_with_lowering (file : SourceFile) (fuel : Nat)
    (resolver : Resolver) (options : Lowering.Options) :
    (∀ lowered, file.lowerWith fuel resolver options = .ok lowered →
      file.check = .ok () ∧ lowered.file.check = .ok ()) ∧
    (file.check = .ok () → ∀ report,
      file.lowerWith fuel resolver options = .error (.fatal report) →
        report.cause = .typeResolution ∨ report.cause = .illegal .mapSubscript) := by
  simp only [SourceFile.check_eq_ok]
  have hpoints (hlegal : ∀ decl ∈ file.decls, decl.reports = []) :=
    lowerWith_points (fun decl hdecl => (Decl.reports_eq_nil.1 (hlegal decl hdecl)).1)
      (fun func hfunc => by simp [(Decl.reports_eq_nil.1 (hlegal _ hfunc)).2 func rfl, Norm.Admits])
      fuel resolver options
  refine ⟨fun lowered hlowered => ?_, fun hlegal report hr => (hpoints hlegal).2 _ hr⟩
  obtain ⟨s', hwalks, -⟩ := lowerWith_walks hlowered
  obtain ⟨hlegal, hheads⟩ := hwalks.reports
  obtain ⟨-, hfits⟩ := (hpoints hlegal).1 lowered hlowered
  refine ⟨hlegal, fun decl hdecl => Decl.reports_eq_nil.2 ⟨hfits decl hdecl, ?_⟩⟩
  rintro func rfl
  exact hheads func hdecl

/-- The file `func f(m map[int]int, a []int) { .. }` with one statement in the body. -/
def overElements (form : StmtForm) : SourceFile where
  package := none
  imports := []
  decls := [.func
    { receiver := none
      name := ⟨"f", ⟨0, 5, 6⟩⟩
      params :=
        [⟨[⟨"m", ⟨0, 7, 8⟩⟩], ⟨.map (.named "int") (.named "int"), ⟨0, 9, 20⟩⟩⟩,
          ⟨[⟨"a", ⟨0, 22, 23⟩⟩], ⟨.array none (.named "int"), ⟨0, 24, 29⟩⟩⟩]
      results := []
      body := some ⟨[⟨0, ⟨0, 33, 45⟩, form⟩], ⟨0, 31, 47⟩⟩
      span := ⟨0, 0, 47⟩ }]
  nextId := 1

/-- The element `base[key]`, at a given offset. -/
def elementAt (start : Nat) (base key : String) : Expr :=
  .index ⟨0, start, start + 4⟩ (.ident ⟨0, start, start + 1⟩ base)
    (.lit ⟨0, start + 2, start + 3⟩ (.int key))

/-- `m[1] += a[2]` -/
def updating : SourceFile :=
  overElements (.assign [elementAt 33 "m" "1"] .add [elementAt 41 "a" "2"])

/-- `for m[1] {}`, whose condition has no place for a temporary. -/
def testing : SourceFile :=
  overElements (.loop none (some (elementAt 37 "m" "1")) none ⟨[], ⟨0, 42, 44⟩⟩)

/-- An update that is lowered, and a loop condition that cannot be. -/
theorem check_agrees_on_elements :
    (∃ lowered, updating.lowerWith 40 (Table.ofFile updating).resolver {} = .ok lowered ∧
      updating.check = .ok () ∧ lowered.file.check = .ok ()) ∧
    ∃ report, testing.check = .ok () ∧
      testing.lowerWith 40 (Table.ofFile testing).resolver {} = .error (.fatal report) ∧
      (report.cause = .typeResolution ∨ report.cause = .illegal .mapSubscript) := by
  constructor
  · have hrun : (updating.lowerWith 40 (Table.ofFile updating).resolver {}).isOk = true := by
      decide +kernel
    cases h : updating.lowerWith 40 (Table.ofFile updating).resolver {} with
    | error r => rw [h] at hrun; cases hrun
    | ok lowered => exact ⟨lowered, rfl, (updating.check_agrees_with_lowering _ _ _).1 lowered h⟩
  · have hrun : testing.lowerWith 40 (Table.ofFile testing).resolver {} =
        .error (.fatal (.unsupported .mapSubscript ⟨0, 37, 41⟩)) := rfl
    exact ⟨_, rfl, hrun, (testing.check_agrees_with_lowering _ _ _).2 rfl _ hrun⟩

end ScriptLowering
