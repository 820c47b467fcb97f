import ScriptLowering.Proofs.Resting
import ScriptLowering.Proofs.Termination
import ScriptLowering.Proofs.Visibility

/-!
# Lowering a lowered file

A file that was lowered is lowered to itself, by the scope table of the file it came from: the same
statements with the same identities, no fresh identity and no warning. The walk leaves statements
at rest, and at a legal statement at rest the walk changes nothing. What is left to see is that the
second walk comes to an end, and that the head of a lowered function is as it should be.
-/

namespace ScriptLowering

open List

variable {stmt : Stmt} {options : Lowering.Options}

/-! ## Function literals of legal statements -/

mutual

/-- The function literals in a legal expression are legal. -/
theorem Expr.bodies_legal (e : Expr) (h : e.violations = []) :
    ∀ body ∈ e.bodies, ∀ x ∈ body, x.violations = [] := by
  match e with
  | .ident .. | .lit .. | .type .. => simp [Expr.bodies]
  | .slice .. | .typeAssert .. => simp [Expr.violations] at h
  | .composite _ _ elems => exact bodiesOfExprs_legal elems h
  | .funcLit _ _ _ ⟨stmts, _⟩ => simpa [Expr.bodies, Expr.violations] using h
  | .paren _ inner | .selector _ inner _ => exact inner.bodies_legal h
  | .unary _ op inner =>
    cases op <;> first | exact inner.bodies_legal h | simp [Expr.violations] at h
  | .keyValue _ left right | .index _ left right | .binary _ _ left right =>
    obtain ⟨hleft, hright⟩ := append_eq_nil_iff.1 h
    exact forall_mem_append.2 ⟨left.bodies_legal hleft, right.bodies_legal hright⟩
  | .call _ callee args _ =>
    obtain ⟨hcallee, hargs⟩ := append_eq_nil_iff.1 h
    exact forall_mem_append.2 ⟨callee.bodies_legal hcallee, bodiesOfExprs_legal args hargs⟩

theorem bodiesOfExprs_legal (es : List Expr) (h : violationsOfExprs es = []) :
    ∀ body ∈ bodiesOfExprs es, ∀ x ∈ body, x.violations = [] := by
  match es with
  | [] => simp [bodiesOfExprs]
  | e :: es =>
    obtain ⟨he, hes⟩ := append_eq_nil_iff.1 h
    exact forall_mem_append.2 ⟨e.bodies_legal he, bodiesOfExprs_legal es hes⟩

end

theorem violationsOfSpecs_eq_nil {specs} :
    violationsOfSpecs specs = [] ↔ violationsOfExprs (specs.flatMap Spec.values) = [] := by
  induction specs with
  | nil => simp [violationsOfSpecs, violationsOfExprs]
  | cons spec specs ih =>
    cases spec with
    | value names type values =>
      simp only [violationsOfSpecs, append_eq_nil_iff, ih, violationsOfExprs_eq_nil,
        flatMap_cons, Spec.values, forall_mem_append]
    | typeName name isAlias type => simpa [violationsOfSpecs, Spec.values] using ih

/-- The expressions that a legal statement holds itself are legal. -/
theorem Stmt.exprs_legal (h : stmt.ownViolations = []) :
    violationsOfExprs stmt.form.exprs = [] := by
  obtain ⟨id, span, form⟩ := stmt
  cases form with
  | decl decl =>
    obtain ⟨keyword, specs, place⟩ := decl
    exact violationsOfSpecs_eq_nil.1 h
  | expr e | incDec e => exact append_eq_nil_iff.2 ⟨h, rfl⟩
  | assign targets op values =>
    obtain ⟨htargets, hvalues⟩ := append_eq_nil_iff.1 h
    rw [violationsOfExprs_eq_nil] at htargets hvalues ⊢
    exact forall_mem_append.2 ⟨htargets, hvalues⟩
  | ret values => exact h
  | cond init test body otherwise => exact append_eq_nil_iff.2 ⟨h, rfl⟩
  | switch init tag clauses =>
    obtain ⟨htag, hlabels⟩ := append_eq_nil_iff.1 h
    rw [violationsOfLabels_eq_nil] at hlabels
    rw [violationsOfExprs_eq_nil]
    refine forall_mem_append.2 ⟨?_, ?_⟩
    · cases tag <;> simp_all [violationsOfExpr?]
    · intro e he
      obtain ⟨⟨exprs, body, place⟩, hclause, he⟩ := mem_flatMap.1 he
      cases exprs with
      | none => simp [CaseClause.labels] at he
      | some es => exact hlabels _ hclause es rfl e he
  | loop init test post body =>
    cases test <;> simp_all [StmtForm.exprs, violationsOfExpr?, Stmt.ownViolations]
  | range key value defines subject body =>
    cases key <;> cases value <;> simp_all [StmtForm.exprs, violationsOfExpr?, Stmt.ownViolations]
  | labeled | go | defer | send | select | typeSwitch =>
    simp [Stmt.ownViolations, Stmt.violations] at h
  | empty | jump | block => rfl

namespace Lowering

/-! ## The walk over statements at rest -/

section Steps

variable {env : Env} {stmt : Stmt}

theorem Unmoved.of_run {α : Type} {m} {a : α} (h : ∀ s, m s = .ok (a, s)) : Unmoved m a := by
  intro s
  simp [Ensures, h s]

theorem Unmoved.mapM {α : Type} {f} {l : List α} (h : ∀ a ∈ l, Unmoved (f a) a) :
    Unmoved (l.mapM f) l := by
  induction l with
  | nil => exact .pure
  | cons a l ih =>
    rw [mapM_cons]
    obtain ⟨ha, hl⟩ := forall_mem_cons.1 h
    exact ha.bind ((ih hl).bind .pure)

theorem requireLegal_unmoved {reports} (h : reports = []) : Unmoved (requireLegal reports) () := by
  subst h
  exact .pure

theorem wrapElse_of_placed (h : env.Placed stmt) : wrapElse env stmt = pure stmt := by
  unfold wrapElse
  split
  · rename_i init test body otherwise hform
    obtain ⟨hinit, htest⟩ := h _ _ _ _ hform
    simp [hinit, htest]
  · rfl

/-- The statement is legal and a member of a list, and at rest with all that is in it. -/
def Env.Done (env : Env) (stmt : Stmt) : Prop := env.AtRest stmt ∧ stmt.violations = []

end Steps

/-- With a given amount of fuel, the walk changes nothing in what is legal and at rest. -/
structure WalkRests (env : Env) (fuel : Nat) : Prop where
  seq : ∀ declared xs, (∀ x ∈ xs, env.Done x) → Unmoved (lowerSeq fuel ⟨env, none⟩ declared xs) xs
  stmt : ∀ x, x.Throughout env.Rests → x.violations = [] →
    Unmoved (lowerStmt fuel ⟨env, none⟩ x) x
  block : ∀ block, (∀ x ∈ block.stmts, env.Done x) →
    Unmoved (lowerBlock fuel ⟨env, none⟩ block) block
  arms : ∀ clauses, (∀ x ∈ clauses.flatMap (·.body), env.Done x) →
    (∀ body ∈ bodiesOfExprs (clauses.flatMap CaseClause.labels), ∀ x ∈ body, env.Done x) →
    env.resolver.Still (surfaceOfExprs (clauses.flatMap CaseClause.labels)) →
    Unmoved (lowerCases fuel ⟨env, none⟩ clauses) clauses
  header : ∀ x, (∀ y ∈ x, y.Throughout env.Rests ∧ env.Idle y ∧ y.violations = []) →
    Unmoved (lowerHeader fuel ⟨env, none⟩ x) x

namespace WalkRests

variable {env : Env} {fuel : Nat}

theorem zero : WalkRests env 0 where
  seq _ _ _ := by unfold lowerSeq; exact .outOfFuel
  stmt _ _ _ := by unfold lowerStmt; exact .outOfFuel
  block _ _ := by unfold lowerBlock; exact .outOfFuel
  arms _ _ _ _ := by unfold lowerCases; exact .outOfFuel
  header _ _ := by unfold lowerHeader; exact .outOfFuel

theorem stepAt_unmoved (h : env.Quiet stmt) (declared : List String) :
    Unmoved (stepAt fuel ⟨env, none⟩ declared stmt) (.enter stmt []) := by
  cases fuel with
  | zero => unfold stepAt; exact .outOfFuel
  | succ fuel => exact .of_run fun s => stepAt_of_quiet h (by simp) fuel declared

variable (walk : WalkRests env fuel)
include walk

theorem seq_succ (declared : List String) (xs : List Stmt) (h : ∀ x ∈ xs, env.Done x) :
    Unmoved (lowerSeq (fuel + 1) ⟨env, none⟩ declared xs) xs := by
  cases xs with
  | nil => exact .pure
  | cons x xs =>
    obtain ⟨⟨⟨hquiet, hrests⟩, hlegal⟩, hxs⟩ := forall_mem_cons.1 h
    have hown := (x.violations_eq_nil.1 hlegal).1
    refine (requireLegal_unmoved (by simp [hown])).bind ?_
    refine (stepAt_unmoved hquiet declared).bind ?_
    exact (walk.stmt x hrests hlegal).bind ((walk.seq _ xs hxs).bind .pure)

theorem header_succ (x : Option Stmt)
    (h : ∀ y ∈ x, y.Throughout env.Rests ∧ env.Idle y ∧ y.violations = []) :
    Unmoved (lowerHeader (fuel + 1) ⟨env, none⟩ x) x := by
  cases x with
  | none => exact .pure
  | some y =>
    obtain ⟨hrests, hidle, hlegal⟩ := h y rfl
    have hown := (y.violations_eq_nil.1 hlegal).1
    refine (requireLegal_unmoved (by simp [hown])).bind ?_
    rw [replaceStmt_of_idle hidle, pure_bind]
    exact (walk.stmt y hrests hlegal).bind .pure

theorem arms_succ (clauses : List CaseClause) (h : ∀ x ∈ clauses.flatMap (·.body), env.Done x)
    (hbodies : ∀ body ∈ bodiesOfExprs (clauses.flatMap CaseClause.labels), ∀ x ∈ body, env.Done x)
    (hstill : env.resolver.Still (surfaceOfExprs (clauses.flatMap CaseClause.labels))) :
    Unmoved (lowerCases (fuel + 1) ⟨env, none⟩ clauses) clauses := by
  cases clauses with
  | nil => exact .pure
  | cons clause clauses =>
    obtain ⟨exprs, body, span⟩ := clause
    simp only [flatMap_cons, bodiesOfExprs_append, surfaceOfExprs_append, mem_append,
      or_imp, forall_and, Resolver.still_append] at h hbodies hstill
    refine (lowerLabel_unmoved exprs hstill.1 fun body hbody names =>
      walk.seq names body (hbodies.1 body hbody)).bind ?_
    exact (walk.seq [] body h.1).bind ((walk.arms clauses h.2 hbodies.2 hstill.2).bind .pure)

theorem block_succ (block : Block) (h : ∀ x ∈ block.stmts, env.Done x) :
    Unmoved (lowerBlock (fuel + 1) ⟨env, none⟩ block) block := by
  obtain ⟨stmts, place⟩ := block
  exact (walk.seq [] stmts h).bind .pure

theorem branch_unmoved (hrests : stmt.Throughout env.Rests)
    (hplaced : env.Placed stmt) (hlegal : stmt.violations = []) :
    Unmoved (do
      let stmt ← wrapElse env stmt
      requireLegal (stmt.ownViolations.map Violation.report)
      lowerStmt fuel ⟨env, none⟩ stmt) stmt := by
  rw [wrapElse_of_placed hplaced, pure_bind]
  have hown := (stmt.violations_eq_nil.1 hlegal).1
  exact (requireLegal_unmoved (by simp [hown])).bind (walk.stmt stmt hrests hlegal)

theorem stmt_succ (stmt : Stmt) (h : stmt.Throughout env.Rests) (hlegal : stmt.violations = []) :
    Unmoved (lowerStmt (fuel + 1) ⟨env, none⟩ stmt) stmt := by
  obtain ⟨hrests, hinner, hliterals⟩ := Stmt.throughout_iff.1 h
  obtain ⟨hown, hparts⟩ := stmt.violations_eq_nil.1 hlegal
  have hdone : ∀ body ∈ stmt.form.bodies, ∀ x ∈ body, env.Done x := by
    intro body hbody x hx
    refine ⟨⟨?_, hliterals body hbody x hx⟩, ?_⟩
    · exact hrests.members body (mem_append_left _ hbody) x hx
    · exact bodiesOfExprs_legal _ (Stmt.exprs_legal hown) body hbody x hx
  have hbodies : ∀ body ∈ stmt.form.bodies, ∀ names,
      Unmoved (lowerSeq fuel ⟨env, none⟩ names body) body :=
    fun body hbody names => walk.seq names body (hdone body hbody)
  have hheaders : ∀ y ∈ stmt.form.headers,
      y.Throughout env.Rests ∧ env.Idle y ∧ y.violations = [] := by
    intro y hy
    have hmem := StmtForm.mem_inner (.inl hy)
    exact ⟨hinner y hmem, (hrests.headers y hy).1, hparts y hmem⟩
  have hblocks : ∀ xs ∈ stmt.form.blocks, ∀ y ∈ xs, env.Done y := by
    intro xs hxs y hy
    have hmem := StmtForm.mem_inner (.inr (.inr ⟨xs, hxs, hy⟩))
    exact ⟨⟨hrests.members xs (mem_append_right _ hxs) y hy, hinner y hmem⟩, hparts y hmem⟩
  have hstill := hrests.still
  have hbranch := hrests.branch
  have hspelled := hrests.spelled
  obtain ⟨id, span, form⟩ := stmt
  cases form with
  | decl decl =>
    obtain ⟨keyword, specs, place⟩ := decl
    exact (lowerGenDecl_unmoved ⟨keyword, specs, place⟩ hstill hbodies).bind .pure
  | expr e | incDec e increments =>
    simp only [StmtForm.exprs, StmtForm.bodies, surfaceOfExprs, bodiesOfExprs, append_nil]
      at hstill hbodies
    exact (lowerExpr_unmoved e hstill hbodies).bind .pure
  | assign targets op values =>
    simp only [StmtForm.exprs, StmtForm.bodies, surfaceOfExprs_append, bodiesOfExprs_append,
      Resolver.still_append, forall_mem_append] at hstill hbodies
    have hop : op ≠ .andNot := fun hop => hspelled targets values (by rw [hop])
    refine Unmoved.bind (a := .assign targets op values) ?_ .pure
    refine (lowerExprs_unmoved targets hstill.1 hbodies.1).bind ?_
    refine (lowerExprs_unmoved values hstill.2 hbodies.2).bind ?_
    rw [if_neg hop]
    exact .pure
  | ret values => exact (lowerExprs_unmoved values hstill hbodies).bind .pure
  | block block =>
    exact (walk.block block (by simpa [StmtForm.blocks] using hblocks)).bind .pure
  | cond init test body otherwise =>
    simp only [StmtForm.exprs, StmtForm.bodies, surfaceOfExprs, bodiesOfExprs, append_nil]
      at hstill hbodies
    refine (walk.header init (by simpa [StmtForm.headers] using hheaders)).bind ?_
    refine (lowerExpr_unmoved test hstill hbodies).bind ?_
    refine (walk.block body (by simpa [StmtForm.blocks] using hblocks)).bind ?_
    cases otherwise with
    | none => exact .pure
    | some y =>
      have hmem : y ∈ (StmtForm.cond init test body (some y)).inner :=
        StmtForm.mem_inner (.inr (.inl rfl))
      have hrun := walk.branch_unmoved (hinner y hmem) (hbranch y rfl).1 (hparts y hmem)
      have hstmt := hrun.bind (f := fun y =>
        pure (⟨id, span, .cond init test body (some y)⟩ : Stmt)) .pure
      simpa only [bind_assoc] using hstmt
  | switch init tag clauses =>
    simp only [bodies_switch, forall_mem_append] at hbodies hdone
    simp only [StmtForm.exprs, surfaceOfExprs_append, surfaceOfExprs_toList,
      Resolver.still_append] at hstill
    refine (walk.header init (by simpa [StmtForm.headers] using hheaders)).bind ?_
    refine (lowerExpr?_unmoved tag hstill.1 hbodies.1).bind ?_
    refine (walk.arms clauses ?_ hdone.2 hstill.2).bind .pure
    intro x hx
    obtain ⟨clause, hclause, hx⟩ := mem_flatMap.1 hx
    exact hblocks _ (mem_map_of_mem hclause) x hx
  | loop init test post body =>
    simp only [StmtForm.headers, forall_mem_append, Option.mem_toList] at hheaders
    rw [StmtForm.exprs, surfaceOfExprs_toList] at hstill
    obtain ⟨stmts, place⟩ := body
    rw [bodies_loop] at hbodies
    refine (walk.header init hheaders.1).bind ?_
    refine (lowerExpr?_unmoved test hstill hbodies).bind ?_
    refine (walk.header post hheaders.2).bind ?_
    exact (walk.block _ (by simpa [StmtForm.blocks] using hblocks)).bind .pure
  | range key value defines subject body =>
    obtain ⟨stmts, place⟩ := body
    simp only [bodies_range, forall_mem_append] at hbodies
    simp only [StmtForm.exprs, surfaceOfExprs_append, surfaceOfExprs_toList, surfaceOfExprs,
      append_nil, Resolver.still_append] at hstill
    refine (lowerExpr?_unmoved key hstill.1.1 hbodies.1.1).bind ?_
    refine (lowerExpr?_unmoved value hstill.1.2 hbodies.1.2).bind ?_
    refine (lowerExpr_unmoved subject hstill.2 hbodies.2).bind ?_
    exact (walk.block _ (by simpa [StmtForm.blocks] using hblocks)).bind .pure
  | empty | jump => exact .pure
  | labeled | go | defer | send | select | typeSwitch =>
    simp [Stmt.violations] at hlegal

end WalkRests

theorem walk_rests (env : Env) : ∀ fuel, WalkRests env fuel
  | 0 => .zero
  | fuel + 1 =>
    have walk := walk_rests env fuel
    { seq := walk.seq_succ
      stmt := walk.stmt_succ
      block := walk.block_succ
      arms := walk.arms_succ
      header := walk.header_succ }

/-! ## Heads -/

/-- The results of a lowered function: one value at most. -/
def AtMostOne (results : List Field) : Prop :=
  results = [] ∨ ∃ field, results = [field] ∧ field.arity = 1

theorem results_atMostOne (func : FuncDecl) : AtMostOne (lowerHead func).func.results := by
  show AtMostOne ((((entries (shapeOf func.results)).zip func.results).filter
    fun x => !x.1.moves).map (·.2))
  cases func.results with
  | nil => exact .inl rfl
  | cons field fields =>
    have hrest : ((entriesFrom 1 field.arity (shapeOf fields)).zip fields).filter
        (fun x => !x.1.moves) = [] := by
      refine filter_eq_nil_iff.2 fun x hx => ?_
      simp [moves_of_mem_entriesFrom (of_mem_zip hx).1]
    simp only [shapeOf, map_cons, entries, entriesFrom, zip_cons_cons,
      filter_cons, Nat.zero_add] at hrest ⊢
    rw [hrest]
    have hpos : 1 ≤ field.arity := Nat.le_max_right _ _
    by_cases hmany : 1 < field.arity
    · exact .inl (by simp [Entry.moves, hmany])
    · exact .inr ⟨field, by simp [Entry.moves, hmany], by omega⟩

/-- A head with one result at most and no receiver is as it should be. -/
theorem lowerHead_of_atMostOne {func} (hreceiver : func.receiver = none)
    (h : AtMostOne func.results) : lowerHead func = ⟨func, none, []⟩ := by
  obtain ⟨receiver, name, params, results, body, span⟩ := func
  obtain rfl : receiver = none := hreceiver
  rcases h with h | ⟨field, h, harity⟩
  · obtain rfl : results = [] := h
    simp [lowerHead, shapeOf, entries, entriesFrom]
  · obtain rfl : results = [field] := h
    simp [lowerHead, shapeOf, entries, entriesFrom, harity, Entry.moves]

/-! ## Declarations -/

/-- The declaration is as the lowering leaves it. -/
def Env.DeclRests (env : Env) : Decl → Prop
  | .func func => func.receiver = none ∧ AtMostOne func.results ∧
    ∀ x ∈ (Decl.func func).stmts, env.AtRest x
  | .gen decl => env.resolver.Still (surfaceOfExprs (decl.specs.flatMap Spec.values)) ∧
    ∀ x ∈ (Decl.gen decl).stmts, env.AtRest x

section Declarations

variable {env : Env} {table : Table} {fuel : Nat} {decl : Decl}

/-- The lowering of a declaration leaves one at rest. -/
theorem lowerDecl_rests (henv : env.resolver = table.resolver) (hpositive : env.Positive)
    (h : ∀ x ∈ decl.stmts, x.Throughout env.Steady) :
    Yields (lowerDecl fuel env decl) env.DeclRests fun _ => True := by
  intro s
  refine .intro (fun decl' s' hrun => ?_) fun _ _ => trivial
  have hwalks := (lowerDecl_walks decl).of_ok hrun
  cases hwalks with
  | @head func _ hbody =>
    exact ⟨rfl, results_atMostOne func, by simp [Decl.stmts, hbody, lowerHead]⟩
  | @func func _ locals _ _ _ _ hbody hlocals _ hwalks =>
    refine ⟨rfl, results_atMostOne func, ?_⟩
    have hsteady : ∀ x ∈ locals, x.Throughout env.Steady := by
      intro x hx
      refine (steady_lasts env).of_isPlain ?_ (by simp [(hlocals x hx).bodies])
      obtain ⟨-, vars, hform⟩ := hlocals x hx
      simp [hform, isPlain]
    refine hwalks.rests henv hpositive (fun _ => ascending_of_lowerHead)
      (forall_mem_append.2 ⟨hsteady, ?_⟩)
    simpa [Decl.stmts, hbody] using h
  | gen hwalks hspecs =>
    refine ⟨henv ▸ ((lowerSpecs_respells henv _).of_ok hspecs).2, fun x hx => ?_⟩
    obtain ⟨body, hbody, hx⟩ := mem_flatten.1 hx
    refine hwalks.rests henv hpositive Task.unplanned ?_ body hbody x hx
    intro body hbody y hy
    exact h y (mem_flatten.2 ⟨body, hbody, hy⟩)

/-- Lowering a legal declaration at rest changes nothing. -/
theorem lowerDecl_unmoved (h : env.DeclRests decl) (hlegal : decl.reports = []) :
    Unmoved (lowerDecl fuel env decl) decl := by
  cases decl with
  | func func =>
    obtain ⟨hreceiver, hresults, hstmts⟩ := h
    obtain ⟨hhead, hbody⟩ := Decl.reports_func_eq_nil.1 hlegal
    refine Unmoved.bind (a := func) ?_ .pure
    refine (requireLegal_unmoved hhead).bind ?_
    rw [lowerHead_of_atMostOne hreceiver hresults]
    obtain ⟨receiver, name, params, results, body, span⟩ := func
    cases body with
    | none => exact .pure
    | some body =>
      obtain ⟨stmts, place⟩ := body
      have hdone : ∀ x ∈ stmts, env.Done x := fun x hx => ⟨hstmts x hx, hbody _ rfl x hx⟩
      refine Unmoved.bind (a := []) .pure ?_
      exact ((walk_rests env fuel).seq _ stmts hdone).bind .pure
  | gen decl =>
    obtain ⟨hstill, hstmts⟩ := h
    have hlegal : violationsOfSpecs decl.specs = [] := by simpa [Decl.reports] using hlegal
    refine (requireLegal_unmoved (by simp [hlegal])).bind ?_
    refine (lowerGenDecl_unmoved decl hstill fun body hbody names => ?_).bind .pure
    refine (walk_rests env fuel).seq names body fun x hx => ?_
    exact ⟨hstmts x (mem_flatten.2 ⟨body, hbody, hx⟩),
      bodiesOfExprs_legal _ (violationsOfSpecs_eq_nil.1 hlegal) body hbody x hx⟩

end Declarations

/-! ## Another table of results -/

section Shapes

variable {resolver : Resolver} {options : Options} {shapes shapes' : List (String × List Nat)}
  {stmt : Stmt}

/-- Whether a rule applies does not depend on the results of functions. -/
theorem Env.Idle.reshape (h : Env.Idle ⟨resolver, options, shapes⟩ stmt) :
    Env.Idle ⟨resolver, options, shapes'⟩ stmt :=
  ⟨⟨h.write, h.read, h.define, h.complete, h.update⟩, h.hoist⟩

theorem Env.Quiet.reshape (h : Env.Quiet ⟨resolver, options, shapes⟩ stmt) :
    Env.Quiet ⟨resolver, options, shapes'⟩ stmt :=
  ⟨h.idle.reshape, h.hoists, h.splitsPost, h.splitsDecl⟩

theorem Env.AtRest.reshape (h : Env.AtRest ⟨resolver, options, shapes⟩ stmt) :
    Env.AtRest ⟨resolver, options, shapes'⟩ stmt :=
  ⟨h.1.reshape, h.2.mono fun _ hform => ⟨hform.still, hform.spelled,
    fun y hy => ⟨(hform.headers y hy).1.reshape, (hform.headers y hy).2⟩,
    fun xs hxs y hy => (hform.members xs hxs y hy).reshape, hform.branch⟩⟩

theorem Env.DeclRests.reshape {decl} (h : Env.DeclRests ⟨resolver, options, shapes⟩ decl) :
    Env.DeclRests ⟨resolver, options, shapes'⟩ decl := by
  cases decl with
  | func func => exact ⟨h.1, h.2.1, fun x hx => (h.2.2 x hx).reshape⟩
  | gen decl => exact ⟨h.1, fun x hx => (h.2 x hx).reshape⟩

end Shapes

/-! ## Loops at rest -/

section Loops

variable {env : Env}

/-- A post statement at rest settles. -/
theorem isStuck_of_idle {post} (hidle : env.Idle post)
    (hneeds : env.needsDeclarations post = false) : post.form.isStuck = false := by
  by_contra hstuck
  obtain ⟨id, span, form⟩ := post
  cases form with
  | assign targets op values =>
    obtain ⟨value, rfl, -, hcount, hblank, -⟩ := isStuck_iff.1 (by simpa using hstuck)
    have hvalue : env.isElement span value = false := by
      apply extractForm_eq_none.1 (hidle.hoist "")
      simp [StmtForm.evaluated, surfaceOfExprs, Expr.mem_surface_self]
    simp [Env.needsDeclarations, hvalue, hcount, hblank] at hneeds
  | _ => simp [StmtForm.isStuck] at hstuck

theorem Env.Rests.hasStuckPost {form} (h : env.Rests form) : form.hasStuckPost = false := by
  unfold StmtForm.hasStuckPost
  split
  · rename_i init test post body
    obtain ⟨hidle, -, hneeds⟩ :=
      h.headers post (mem_append_right _ (mem_singleton_self _))
    exact isStuck_of_idle hidle hneeds
  · rfl

theorem Env.DeclRests.unstuck {decl} (h : env.DeclRests decl) : ∀ x ∈ decl.stmts, x.Unstuck := by
  have hstmts : ∀ x ∈ decl.stmts, env.AtRest x := by
    cases decl with
    | func func => exact h.2.2
    | gen decl => exact h.2
  intro x hx
  exact (hstmts x hx).2.mono fun _ => Env.Rests.hasStuckPost

end Loops

end Lowering

open Lowering

/-! ## Files -/

section Files

variable {scan : Token.ScanOptions} {index : Nat} {source : String} {file : SourceFile}

theorem StmtForm.Shaped.isSimple {form} (h : form.Shaped) (hsupported : isSupported form = true) :
    ∀ y ∈ form.headers, y.isSimple := by
  cases form with
  | cond => exact fun y hy => h.1 y (Option.mem_toList.1 hy)
  | switch => exact fun y hy => h y (Option.mem_toList.1 hy)
  | loop =>
    intro y hy
    rcases mem_append.1 hy with hinit | hpost
    · exact h.1 y (Option.mem_toList.1 hinit)
    · exact h.2 y (Option.mem_toList.1 hpost)
  | typeSwitch | select => simp [isSupported] at hsupported
  | _ => simp [StmtForm.headers]

theorem headers_of_isSimple {x : Stmt} (h : x.isSimple = true) :
    x.form.headers = [] ∧ x.form.headerNames = [] := by
  obtain ⟨id, span, form⟩ := x
  cases form with
  | expr | send | incDec | assign => exact ⟨rfl, rfl⟩
  | _ => simp [Stmt.isSimple] at h

section Parsed

variable (hfile : SourceFile.ofSource scan index source = .ok file) {x : Stmt}
  (options : Lowering.Options) (shapes : List (String × List Nat))

include hfile

/-- A simple statement of a parsed file declares nothing before its own subscripts. -/
theorem SourceFile.Holds.trusts (hx : file.Holds x) (hsimple : x.isSimple = true) :
    Env.Trusts ⟨(Table.ofFile file).resolver, options, shapes⟩ x := by
  intro y hy
  obtain ⟨e, he, hy⟩ := mem_surfaceOfExprs.1 hy
  cases y with
  | index span base key =>
    refine SourceFile.container_tests_agree hfile hx he hy ?_
    simp [(headers_of_isSimple hsimple).2]
  | _ => rfl

theorem SourceFile.Holds.steady (hx : file.Holds x) :
    Env.Steady ⟨(Table.ofFile file).resolver, options, shapes⟩ x.form := by
  obtain ⟨a, b, -, hdecls⟩ := ofSource_placed hfile
  have hshaped : x.form.Shaped := (hx.placed hdecls).formed
  refine ⟨fun hsupported y hy => ?_, fun y hy => ?_⟩
  · have hsimple := hshaped.isSimple hsupported y hy
    have hholds := hx.inner (StmtForm.mem_inner (.inl hy))
    exact ⟨.inl (hholds.trusts hfile options shapes hsimple),
      fun _ => by simp [(headers_of_isSimple hsimple).1]⟩
  · have hbranch : y.isBranch = true := by
      generalize x.form = form at hshaped hy
      cases form with
      | cond => exact hshaped.2 y hy
      | _ => simp [StmtForm.branch?] at hy
    obtain ⟨id, span, form⟩ := y
    cases form with
    | cond init test body otherwise => exact .inr ⟨init, test, body, otherwise, rfl⟩
    | block => exact .inl (by simp [Env.Ready, StmtForm.headers])
    | _ => simp [Stmt.isBranch] at hbranch

end Parsed

/-- The declarations of a lowered file are at rest. -/
theorem SourceFile.lower_rests (hfile : SourceFile.ofSource scan index source = .ok file) {lowered}
    (h : file.lower (Table.ofFile file).resolver options = .ok lowered)
    (shapes : List (String × List Nat)) : ∀ decl ∈ lowered.file.decls,
      Env.DeclRests ⟨(Table.ofFile file).resolver, options, shapes⟩ decl := by
  have hpositive := positive_shapesOf file (Table.ofFile file).resolver options
  have hdecls : Yields (file.decls.mapM (lowerDecl file.loweringFuel
      ⟨(Table.ofFile file).resolver, options, shapesOf file⟩))
      (fun out => ∀ decl ∈ out,
        Env.DeclRests ⟨(Table.ofFile file).resolver, options, shapesOf file⟩ decl)
      fun _ => True := by
    refine .mapM fun decl hdecl => ?_
    refine lowerDecl_rests rfl hpositive ?_
    intro x hx literal y hy
    exact SourceFile.Holds.steady hfile _ _ ⟨decl, hdecl, x, hx, literal, hy⟩
  intro decl hdecl
  obtain ⟨-, hrests, -⟩ := (lowerWith_outcome (hdecls _)).1 lowered h
  exact (hrests decl hdecl).reshape

theorem lowerWith_of_unmoved {file : SourceFile} {fuel resolver}
    (h : Unmoved (file.decls.mapM (lowerDecl fuel ⟨resolver, options, shapesOf file⟩)) file.decls) :
    file.lowerWith fuel resolver options = .ok ⟨file, []⟩ ∨
      file.lowerWith fuel resolver options = .error .outOfFuel := by
  have hrun := h { nextId := file.nextId }
  unfold SourceFile.lowerWith
  simp only [StateT.run, Bind.bind, Except.bind]
  cases hout : file.decls.mapM (lowerDecl fuel ⟨resolver, options, shapesOf file⟩)
      { nextId := file.nextId } with
  | error halt =>
    obtain rfl := hrun.of_error hout
    exact .inr rfl
  | ok out =>
    obtain ⟨decls, s⟩ := out
    obtain ⟨rfl, rfl⟩ := hrun.of_ok hout
    exact .inl rfl

/-- A legal file whose declarations are at rest is its own lowered form. -/
theorem SourceFile.lower_of_rests {file : SourceFile} {resolver : Resolver}
    (hrests : ∀ decl ∈ file.decls, Env.DeclRests ⟨resolver, options, shapesOf file⟩ decl)
    (hlegal : file.check = .ok ()) : file.lower resolver options = .ok ⟨file, []⟩ := by
  have hunstuck : ∀ x, file.Holds x → x.form.hasStuckPost = false := by
    rintro x ⟨decl, hdecl, y, hy, literal, hx⟩
    exact (hrests decl hdecl).unstuck y hy literal x hx
  -- A loop at rest has no post statement that is split over and over, so the fuel lasts.
  obtain ⟨answer, hanswer, hends⟩ := SourceFile.loweringEnds_of_unstuck hunstuck resolver options
  have hdecls : Unmoved (file.decls.mapM (lowerDecl file.loweringFuel
      ⟨resolver, options, shapesOf file⟩)) file.decls :=
    .mapM fun decl hdecl =>
      lowerDecl_unmoved (hrests decl hdecl) (SourceFile.check_eq_ok.1 hlegal decl hdecl)
  rcases lowerWith_of_unmoved hdecls with hsame | hfuel
  · exact hsame
  · rw [hends _ (Nat.le_refl _)] at hfuel
    exact absurd hfuel hanswer

/-- The rules are no-ops on the engine's own output: lowering a lowered file again, with the names
of the original file, changes nothing and gives no warning. -/
theorem SourceFile.lower_idempotent (hfile : SourceFile.ofSource scan index source = .ok file)
    {options : Lowering.Options} {lowered : Lowered}
    (h : file.lower (Table.ofFile file).resolver options = .ok lowered) :
    lowered.file.lower (Table.ofFile file).resolver options = .ok ⟨lowered.file, []⟩ :=
  SourceFile.lower_of_rests (SourceFile.lower_rests hfile h _)
    ((file.check_agrees_with_lowering _ _ options).1 lowered h).2

/-- A function that meets most of the rules: a declaration that is split, initializers that move
out, an element that is updated and one that is tested, and several results. -/
def rewriting : String :=
  "package p\n\nfunc f() (int, int) \x7b\n\treturn 1, 2\n\x7d\n\n" ++
    "func g(m map[int]int, k int) (a int, b int) \x7b\n\tvar x, y = f()\n" ++
    "\tif i, j := f(); i < m[j] \x7b\n\t\tm[k] += x &^ y\n" ++
    "\t\x7d else if v, ok := m[k]; ok \x7b\n\t\treturn v, y\n\t\x7d\n" ++
    "\tfor ; x < k; x, _ = f() \x7b\n\t\x7d\n\treturn m[x], y\n\x7d\n"

theorem lower_idempotent_rewriting :
    ∃ file lowered, SourceFile.ofSource {} 0 rewriting = .ok file ∧
      file.lower (Table.ofFile file).resolver {} = .ok lowered ∧
      (file.nextId = 13 ∧ lowered.file.nextId = 30) ∧
      lowered.file.lower (Table.ofFile file).resolver {} = .ok ⟨lowered.file, []⟩ := by
  obtain ⟨file, lowered, hfile, hlower, hids⟩ := @exists_lowered rewriting
    (fun file lowered => file.nextId = 13 ∧ lowered.file.nextId = 30) (by decide +kernel)
  exact ⟨file, lowered, hfile, hlower, of_decide_eq_true hids,
    SourceFile.lower_idempotent hfile hlower⟩

end Files

end ScriptLowering
