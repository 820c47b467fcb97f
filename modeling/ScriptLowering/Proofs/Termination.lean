import Mathlib.Algebra.Order.BigOperators.Group.List
import Mathlib.Tactic.Ring
import ScriptLowering.Proofs.Acceptance
import ScriptLowering.Proofs.Fuel
import ScriptLowering.Proofs.Identities

/-!
# The walk comes to an end

Every visit of a statement leaves less work, so an amount of fuel that exceeds the work suffices,
and the fuel that is computed from the size of a file does. A file in which every post statement
settles is lowered, or rejected with a report; the fuel never runs out.
-/

namespace ScriptLowering

open List

namespace Lowering

/-! ## Expressions -/

section Expressions

variable {env : Env} {lowerBody : SequenceLowering}

/-- The bodies of these function literals are lowered, or rejected with a report. -/
def Lasts (lowerBody : SequenceLowering) (bodies : List (List Stmt)) : Prop :=
  ∀ body ∈ bodies, ∀ declared, Yields (lowerBody declared body) (fun _ => True) Halt.IsFatal

theorem lasts_exprs {es} (h : Lasts lowerBody (bodiesOfExprs es)) :
    ∀ e ∈ es, Lasts lowerBody e.bodies :=
  fun e he body hbody => h body (mem_bodiesOfExprs.2 ⟨e, he, hbody⟩)

theorem enters_lasts : Enters env lowerBody (fun e => Lasts lowerBody e.bodies) (fun _ => True)
    (fun _ _ _ _ => True) Halt.IsFatal where
  parts h x hx := by
    rw [bodies_parts (Expr.isLiteral_of_mem_parts hx)] at h
    exact lasts_exprs h x hx
  keeps _ _ := trivial
  body h _ := h _ mem_cons_self _ _
  node _ _ _ _ _ := trivial
  stop _ _ := trivial

theorem lowerExpr_lasts (e : Expr) (h : Lasts lowerBody e.bodies) :
    Yields (lowerExpr env lowerBody e) (fun _ => True) Halt.IsFatal :=
  fun _ => enters_lasts.expr e h trivial

theorem lowerExprs_lasts (es : List Expr) (h : Lasts lowerBody (bodiesOfExprs es)) :
    Yields (lowerExprs env lowerBody es) (fun _ => True) Halt.IsFatal :=
  fun _ => (enters_lasts.exprs (lasts_exprs h) trivial).mono (fun _ _ _ => trivial) fun _ => id

theorem lowerExpr?_lasts (e : Option Expr) (h : Lasts lowerBody (bodiesOfExpr? e)) :
    Yields (lowerExpr? env lowerBody e) (fun _ => True) Halt.IsFatal := by
  cases e with
  | none => exact .pure trivial
  | some e => exact (lowerExpr_lasts e h).bind fun _ _ => .pure trivial

theorem lowerSpecs_lasts (specs : List Spec)
    (h : Lasts lowerBody (bodiesOfExprs (specs.flatMap Spec.values))) :
    Yields (lowerSpecs env lowerBody specs) (fun _ => True) Halt.IsFatal :=
  fun _ => (enters_lasts.specs (lasts_exprs h) trivial).mono (fun _ _ _ => trivial) fun _ => id

theorem lowerLabel_lasts (exprs : Option (List Expr))
    (h : Lasts lowerBody (bodiesOfExprs (exprs.getD []))) :
    Yields (lowerLabel env lowerBody exprs) (fun _ => True) Halt.IsFatal :=
  fun _ => (enters_lasts.label (lasts_exprs h) trivial).mono (fun _ _ _ => trivial) fun _ => id

end Expressions

/-! ## One visit -/

section Visits

variable {env : Env} {plan : Option ReturnPlan} {stmt : Stmt} {s s' : State}

/-- A rule applies to a post statement that asks for declarations, unless it is stuck. -/
theorem not_idle_of_needsDeclarations (h : env.needsDeclarations stmt = true)
    (hstuck : stmt.form.isStuck = false) : ¬ env.Idle stmt := by
  intro hidle
  unfold Env.needsDeclarations at h
  split at h
  · rename_i targets op value hform
    have hvalue : env.isElement stmt.span value = false := by
      refine extractForm_eq_none.1 (hidle.hoist "") value ?_
      simp [hform, StmtForm.evaluated, surfaceOfExprs, Expr.mem_surface_self]
    rw [if_neg (by simp [hvalue])] at h
    obtain ⟨hcount, h⟩ : 1 < targets.length ∧ (op = .define ∨ targets.any Expr.isBlank = true) := by
      simpa using h
    by_cases hop : op = .define
    · subst hop
      exact absurd (hidle.define _ _ hform) (Nat.not_le.2 hcount)
    · have hblank := h.resolve_left hop
      have hcall : op = .assign ∧ value.isCall = true := by
        by_contra hcall
        rw [hform] at hstuck
        have hstuck' : (StmtForm.assign targets op [value]).isStuck = true := by
          refine isStuck_iff.2 ⟨value, rfl, hop, hcount, hblank, ?_⟩
          intro hassign
          by_contra hvalue
          exact hcall ⟨hassign, by simpa using hvalue⟩
        rw [hstuck'] at hstuck
        contradiction
      obtain ⟨rfl, hcall⟩ := hcall
      cases value with
      | call span callee args spread =>
        exact absurd (hidle.complete _ _ _ _ _ hform) (Nat.not_le.2 hcount)
      | _ => simp [Expr.isCall] at hcall
  · contradiction

/-- A post statement that is lowered for itself becomes less work. -/
theorem Walks.lighter_post {post posts} (h : Walks env (.seq plan [post] posts) s s')
    (henv : env.Positive) (hplan : ∀ p ∈ plan, p.Ascending)
    (hneeds : env.needsDeclarations post = true) (hstuck : post.form.isStuck = false) :
    workOfStmts posts (returnCost plan s') + 1 ≤ post.work (returnCost plan s) := by
  have hidle := not_idle_of_needsDeclarations hneeds hstuck
  have hloose := isLoose_of_needsDeclarations hneeds hstuck
  cases h with
  | hoist _ hform => simp [not_isLoose_of_withoutInit hform] at hloose
  | post _ hform => simp [hform, isLoose] at hloose
  | split _ hform => simp [hform, isLoose, Spec.values] at hloose
  | @replace _ _ _ _ _ _ s1 _ _ hrewrites hissues hrun =>
    have hwork := hrewrites.work (returnCost plan s) henv
    have hlighter := hrun.lighter henv hplan
    have hcost : returnCost plan s1 = returnCost plan s := by
      funext id
      simp only [returnCost, hissues.settled]
    simp only [Task.Lighter, workOfStmts_append, workOfStmts_cons, workOfStmts_nil, hcost]
      at hlighter
    omega
  | settle _ hidle' => exact absurd hidle' hidle
  | enter _ hquiet => exact absurd hquiet.idle hidle

/-- What is visited again is less work than the statement was. -/
theorem Visits.revisit_work {stmts} (h : Visits env plan stmt s (.revisit stmts) s')
    (henv : env.Positive) (hplan : ∀ p ∈ plan, p.Ascending) (hstmt : stmt.Unstuck) :
    workOfStmts stmts (returnCost plan s') + 1 ≤ stmt.work (returnCost plan s) := by
  generalize hstep : Step.revisit stmts = step at h
  cases h with
  | hoist hform =>
    cases hstep
    exact withoutInit_work (returnCost plan s) s.nextId stmt.id stmt.span stmt.span hform
  | @post init _ _ _ body _ _ _ hform hneeds hposts hparts =>
    cases hstep
    obtain ⟨hpost, -⟩ := Stmt.unstuck_iff.1 hstmt
    obtain ⟨id, span, form⟩ := stmt
    obtain rfl : form = _ := hform
    obtain ⟨body, place⟩ := body
    have hlighter := hposts.lighter_post henv hplan hneeds hpost
    rw [work_of_partition _ hparts] at hlighter
    have hanti := returnCost_anti plan hposts.grows.2
    have hinit := workOfHeader_mono hanti init
    have hbody := workOfStmts_mono hanti body
    simp only [workOfStmts_append, workOfStmts_cons, workOfStmts_nil, Stmt.work, workOfHeader]
    omega
  | split hform hnew =>
    cases hstep
    exact split_work (returnCost plan s) s.nextId hform hnew
  | replace hrewrites hissues =>
    cases hstep
    have hcost : returnCost plan s' = returnCost plan s := by
      funext id
      simp only [returnCost, hissues.settled]
    have hwork := hrewrites.work (returnCost plan s) henv
    simpa [hcost] using hwork
  | @settle p _ _ hp _ hfresh hsettles =>
    subst hp hstep
    have hpaid : returnCost (some p) s' stmt.id = 0 := by
      simp [returnCost, hsettles.grows.2]
    exact hsettles.work (returnCost (some p) s) (hplan p rfl) hpaid (by simp [returnCost, hfresh])
  | enter => contradiction

/-- What is entered, and what is visited after it, is at most the work the statement was. -/
theorem Visits.enter_work {x more} (h : Visits env plan stmt s (.enter x more) s')
    (hplan : ∀ p ∈ plan, p.Ascending) :
    workOfStmts (x :: more) (returnCost plan s') ≤ stmt.work (returnCost plan s) := by
  generalize hstep : Step.enter x more = step at h
  cases h with
  | @settle p _ _ hp _ hfresh hsettles =>
    subst hp hstep
    have hpaid : returnCost (some p) s' stmt.id = 0 := by
      simp [returnCost, hsettles.grows.2]
    have hwork := hsettles.work (returnCost (some p) s) (hplan p rfl) hpaid
      (by simp [returnCost, hfresh])
    exact Nat.le_of_succ_le hwork
  | enter =>
    cases hstep
    exact Nat.le_refl _
  | _ => contradiction

/-- The loops whose post statement never settles. -/
def stuckLoops : Ledger where
  weight x := if x.form.hasStuckPost then 1 else 0
  clock _ := 0
  supply _ _ := 0

theorem stuckLoops_covers {xs ys} (h : ∀ y ∈ ys, y.form.hasStuckPost = false) :
    stuckLoops.Covers xs ys s s' where
  grows := Nat.le_refl 0
  count := by
    rw [tally_eq_zero.2 fun y hy => by simp [stuckLoops, h y hy]]
    exact Nat.zero_le _

/-- No step makes a loop whose post statement never settles. -/
theorem stuckLoops_sound (env : Env) : stuckLoops.Sound env where
  add _ _ := rfl
  block _ _ _ := stuckLoops_covers (by simp [StmtForm.hasStuckPost])
  compound {form form'} _ _ _ _ h := by
    simp only [stuckLoops]
    grind
  range _ _ _ _ _ _ _ _ _ := Nat.le_refl 0
  plain _ _ h := by
    cases h <;> exact Nat.zero_le _
  split _ _ hnew := by
    refine stuckLoops_covers (forall_mem_cons.2 ⟨?_, by simp [StmtForm.hasStuckPost]⟩)
    rcases hnew with rfl | ⟨_, -, rfl⟩ <;> rfl
  rewrites h _ := stuckLoops_covers (forall_mem_append.2
    ⟨fun x hx => hasStuckPost_of_isPlain (h.before_isPlain hx), by simpa using h.hasStuckPost⟩)
  settles h := stuckLoops_covers fun x hx => hasStuckPost_of_isPlain (h.plain x hx)

theorem unstuck_iff_tally {x : Stmt} : x.Unstuck ↔ tally stuckLoops.weight x.all = 0 := by
  simp [tally_all_eq_zero, Stmt.Unstuck, stuckLoops]

theorem Visits.unstuck {step} (h : Visits env plan stmt s step s') (henv : env.Positive)
    (hplan : ∀ p ∈ plan, p.Ascending) (hstmt : stmt.Unstuck) : ∀ x ∈ step.stmts, x.Unstuck := by
  have hcount := ((stuckLoops_sound env).visits h henv hplan).count
  rw [unstuck_iff_tally.1 hstmt, allOfStmts_eq] at hcount
  intro x hx
  rw [unstuck_iff_tally, tally_eq_zero]
  intro y hy
  exact tally_eq_zero.1 (Nat.le_zero.1 hcount) y (mem_flatMap.2 ⟨x, hx, hy⟩)

theorem Visits.grows {step} (h : Visits env plan stmt s step s') : s.settled ⊆ s'.settled := by
  cases h with
  | hoist | split | enter => exact Subset.refl _
  | post _ _ hposts => exact hposts.grows.2
  | replace _ hissues => exact hissues.settled ▸ Subset.refl _
  | settle _ _ _ hsettles =>
    rw [hsettles.grows.2]
    exact subset_cons_self _ _

end Visits

/-! ## Fuel -/

/-- Fuel that exceeds the work does not run out. -/
structure Suffices (env : Env) (fuel : Nat) : Prop where
  seq : ∀ plan declared stmts s, (∀ p ∈ plan, p.Ascending) → (∀ x ∈ stmts, x.Unstuck) →
    workOfStmts stmts (returnCost plan s) + 1 ≤ fuel →
    Ensures (lowerSeq fuel ⟨env, plan⟩ declared stmts) (fun _ _ => True) Halt.IsFatal s
  stmt : ∀ plan x s, (∀ p ∈ plan, p.Ascending) → x.Unstuck → x.work (returnCost plan s) ≤ fuel →
    Ensures (lowerStmt fuel ⟨env, plan⟩ x) (fun _ _ => True) Halt.IsFatal s
  arms : ∀ plan clauses s, (∀ p ∈ plan, p.Ascending) →
    (∀ x ∈ clauses.flatMap (·.body), x.Unstuck) →
    (∀ body ∈ bodiesOfExprs (clauses.flatMap CaseClause.labels), ∀ x ∈ body, x.Unstuck) →
    workOfCases clauses (returnCost plan s) + 1 ≤ fuel →
    Ensures (lowerCases fuel ⟨env, plan⟩ clauses) (fun _ _ => True) Halt.IsFatal s
  header : ∀ plan x s, (∀ p ∈ plan, p.Ascending) → (∀ y ∈ x, y.Unstuck) →
    workOfHeader x (returnCost plan s) + 1 ≤ fuel →
    Ensures (lowerHeader fuel ⟨env, plan⟩ x) (fun _ _ => True) Halt.IsFatal s

namespace Suffices

variable {env : Env} {fuel : Nat} {plan : Option ReturnPlan} {s : State}

theorem zero : Suffices env 0 where
  seq _ _ _ _ _ _ h := absurd h (Nat.not_succ_le_zero _)
  stmt _ x _ _ _ h := absurd (Nat.le_trans (x.four_le_work _) h) (by simp)
  arms _ _ _ _ _ _ h := absurd h (Nat.not_succ_le_zero _)
  header _ _ _ _ _ h := absurd h (Nat.not_succ_le_zero _)

theorem seq_succ (below : ∀ m, m ≤ fuel → Suffices env m) (henv : env.Positive)
    (hplan : ∀ p ∈ plan, p.Ascending) (declared : List String) (stmts : List Stmt)
    (hstmts : ∀ x ∈ stmts, x.Unstuck)
    (hfuel : workOfStmts stmts (returnCost plan s) + 1 ≤ fuel + 1) :
    Ensures (lowerSeq (fuel + 1) ⟨env, plan⟩ declared stmts) (fun _ _ => True) Halt.IsFatal s := by
  cases stmts with
  | nil =>
    trivial
  | cons stmt rest =>
    obtain ⟨hstmt, hrest⟩ := forall_mem_cons.1 hstmts
    rw [workOfStmts_cons] at hfuel
    have hfour := stmt.four_le_work (returnCost plan s)
    obtain ⟨fuel, rfl⟩ : ∃ m, fuel = m + 1 := ⟨fuel - 1, by omega⟩
    refine (WalkRuns.ensures_legal stmt).bind ?_
    rintro _ s1 ⟨rfl, hown⟩
    refine (WalkRuns.stepAt_visits (fun _ h => h.isFatal) declared ?_).bind ?_
    · intro init test post body hform _
      obtain ⟨-, hinner, -⟩ := Stmt.unstuck_iff.1 hstmt
      have hpost := hinner post (by simp [hform, StmtForm.inner])
      refine ((walk_runs env fuel).seq plan [] [post] s1).and
        ((below fuel (by omega)).seq plan [] [post] s1 hplan (by simpa using hpost) ?_)
      obtain ⟨id, span, form⟩ := stmt
      obtain rfl : form = _ := hform
      obtain ⟨body, place⟩ := body
      simp only [Stmt.work, workOfHeader, workOfStmts_cons, workOfStmts_nil] at hfuel ⊢
      omega
    · intro step s2 hvisits
      have hunstuck := hvisits.unstuck henv hplan hstmt
      have hgrows : s1.settled ⊆ s2.settled := hvisits.grows
      have hmono := workOfStmts_mono (returnCost_anti plan hgrows) rest
      cases step with
      | revisit stmts =>
        have hwork := hvisits.revisit_work henv hplan hstmt
        refine (below (fuel + 1) (by omega)).seq plan declared (stmts ++ rest) s2 hplan
          (forall_mem_append.2 ⟨hunstuck, hrest⟩) ?_
        rw [workOfStmts_append]
        omega
      | enter x more =>
        have hwork := hvisits.enter_work hplan
        rw [workOfStmts_cons] at hwork
        obtain ⟨hx, hmore⟩ := forall_mem_cons.1 hunstuck
        have hfour := x.four_le_work (returnCost plan s2)
        dsimp only
        refine (((walk_runs env (fuel + 1)).stmt plan x s2 (hvisits.supported hown)).and
          ((below (fuel + 1) (by omega)).stmt plan x s2 hplan hx (by omega))).bind ?_
        intro y s3 hwalks
        rw [ensures_bind]
        have hanti := returnCost_anti plan hwalks.grows.2
        have hmore' := workOfStmts_mono hanti more
        have hrest' := workOfStmts_mono hanti rest
        refine ((below (fuel + 1) (by omega)).seq plan _ (more ++ rest) s3 hplan
          (forall_mem_append.2 ⟨hmore, hrest⟩) ?_).imp (fun _ _ _ => trivial)
        rw [workOfStmts_append]
        omega

theorem le_workOfBodies {body bodies} (h : body ∈ bodies) :
    1 + workOfStmts body (fun _ => 0) ≤ workOfBodies bodies := by
  induction bodies with
  | nil => simp at h
  | cons first bodies ih =>
    rw [workOfBodies_cons]
    rcases mem_cons.1 h with rfl | h
    · omega
    · have := ih h
      omega

/-- The bodies of function literals come to an end. -/
theorem lasts (below : Suffices env fuel) {bodies}
    (hbodies : ∀ body ∈ bodies, ∀ x ∈ body, x.Unstuck) (hfuel : workOfBodies bodies ≤ fuel) :
    Lasts (lowerSeq fuel ⟨env, none⟩) bodies := by
  intro body hbody declared s
  refine below.seq none declared body s (by simp) (hbodies body hbody) ?_
  have hle := le_workOfBodies hbody
  have hcost : returnCost none s = fun _ => 0 := rfl
  rw [hcost]
  omega

theorem arms_succ (below : Suffices env fuel) (hplan : ∀ p ∈ plan, p.Ascending)
    (clauses : List CaseClause) (hstmts : ∀ x ∈ clauses.flatMap (·.body), x.Unstuck)
    (hbodies : ∀ body ∈ bodiesOfExprs (clauses.flatMap CaseClause.labels), ∀ x ∈ body, x.Unstuck)
    (hfuel : workOfCases clauses (returnCost plan s) + 1 ≤ fuel + 1) :
    Ensures (lowerCases (fuel + 1) ⟨env, plan⟩ clauses) (fun _ _ => True) Halt.IsFatal s := by
  cases clauses with
  | nil => trivial
  | cons clause clauses =>
    obtain ⟨exprs, body, span⟩ := clause
    rw [workOfCases_cons, workOfExprs_eq] at hfuel
    simp only [flatMap_cons, mem_append, or_imp, forall_and] at hstmts
    simp only [flatMap_cons, bodiesOfExprs_append, mem_append, or_imp, forall_and]
      at hbodies
    have walk := walk_runs env fuel
    refine ((lowerLabel_threads walk.threads exprs s).and
      (lowerLabel_lasts exprs (below.lasts hbodies.1 ?_) s)).bind ?_
    · omega
    intro exprs' s1 hlabel
    have hmono := workOfStmts_mono (returnCost_anti plan hlabel.grows.2) body
    have hmono' := workOfCases_mono (returnCost_anti plan hlabel.grows.2) clauses
    refine ((walk.seq plan [] body s1).and
      (below.seq plan [] body s1 hplan hstmts.1 (by omega))).bind ?_
    intro out s2 hout
    have hmono'' := workOfCases_mono (returnCost_anti plan hout.grows.2) clauses
    exact (below.arms plan clauses s2 hplan hstmts.2 hbodies.2 (by omega)).bind fun _ _ _ => trivial

theorem header_succ (below : Suffices env fuel) (henv : env.Positive)
    (hplan : ∀ p ∈ plan, p.Ascending) (stmt : Option Stmt) (hstmt : ∀ x ∈ stmt, x.Unstuck)
    (hfuel : workOfHeader stmt (returnCost plan s) + 1 ≤ fuel + 1) :
    Ensures (lowerHeader (fuel + 1) ⟨env, plan⟩ stmt) (fun _ _ => True) Halt.IsFatal s := by
  cases stmt with
  | none => trivial
  | some stmt =>
    have hstmt := hstmt stmt rfl
    simp only [workOfHeader] at hfuel
    refine (WalkRuns.ensures_legal stmt).bind ?_
    rintro _ s1 ⟨rfl, hown⟩
    rw [ensures_bind]
    refine (replaceStmt_outcome [] s1).mono ?_ fun _ h => h.isFatal
    intro r s2 hr
    rcases r with _ | ⟨_ | _, form⟩
    · obtain ⟨rfl, -⟩ := hr
      exact (below.stmt plan stmt s2 hplan hstmt (by omega)).bind fun _ _ _ => trivial
    · obtain ⟨hrewrites, hissues⟩ := hr
      have hunstuck : Stmt.Unstuck ⟨stmt.id, stmt.span, form⟩ :=
        (unstuck_lasts env).of_rewrites hrewrites henv hstmt _ (mem_singleton_self _)
      have hwork := hrewrites.work (returnCost plan s1) henv
      have hgrows : s1.settled ⊆ s2.settled := by
        rw [hissues.settled]
        exact Subset.refl _
      have hmono := Stmt.work_mono (returnCost_anti plan hgrows) ⟨stmt.id, stmt.span, form⟩
      refine (below.stmt plan _ s2 hplan hunstuck ?_).bind fun _ _ _ => trivial
      simp only [workOfStmts_nil] at hwork
      omega
    · trivial

theorem ensures_block (below : ∀ m, m ≤ fuel → Suffices env m) (hplan : ∀ p ∈ plan, p.Ascending)
    (stmts : List Stmt) (place : Span) (hstmts : ∀ x ∈ stmts, x.Unstuck)
    (hfuel : workOfStmts stmts (returnCost plan s) + 2 ≤ fuel) :
    Ensures (lowerBlock fuel ⟨env, plan⟩ ⟨stmts, place⟩) (fun _ _ => True) Halt.IsFatal s := by
  obtain ⟨fuel, rfl⟩ : ∃ m, fuel = m + 1 := ⟨fuel - 1, by omega⟩
  exact ((below fuel (Nat.le_succ _)).seq plan [] stmts s hplan hstmts (by omega)).bind
    fun _ _ _ => trivial

theorem stmt_succ (below' : ∀ m, m ≤ fuel → Suffices env m) (hplan : ∀ p ∈ plan, p.Ascending)
    (stmt : Stmt) (hstmt : stmt.Unstuck) (hfuel : stmt.work (returnCost plan s) ≤ fuel + 1) :
    Ensures (lowerStmt (fuel + 1) ⟨env, plan⟩ stmt) (fun _ _ => True) Halt.IsFatal s := by
  have below := below' fuel (Nat.le_refl _)
  have walk := walk_runs env fuel
  obtain ⟨id, span, form⟩ := stmt
  obtain ⟨-, hinner, hbodies⟩ := Stmt.unstuck_iff.1 hstmt
  unfold lowerStmt
  cases form with
  | decl decl =>
    obtain ⟨keyword, specs, place⟩ := decl
    simp only [Stmt.work, workOfSpecs_eq, workOfExprs_eq] at hfuel
    simp only [lowerGenDecl, bind_assoc, pure_bind]
    exact (lowerSpecs_lasts specs (below.lasts hbodies (by omega)) s).bind fun _ _ _ => trivial
  | expr e =>
    simp only [Stmt.work, Expr.work_eq] at hfuel
    rw [bodies_expr] at hbodies
    exact (lowerExpr_lasts e (below.lasts hbodies (by omega)) s).bind fun _ _ _ => trivial
  | incDec e increments =>
    simp only [Stmt.work, Expr.work_eq] at hfuel
    rw [bodies_incDec] at hbodies
    exact (lowerExpr_lasts e (below.lasts hbodies (by omega)) s).bind fun _ _ _ => trivial
  | assign targets op values =>
    simp only [Stmt.work, workOfExprs_eq] at hfuel
    simp only [bodies_assign, mem_append, or_imp, forall_and] at hbodies
    simp only [lowerAssign, bind_assoc]
    refine (lowerExprs_lasts targets (below.lasts hbodies.1 (by omega)) s).bind ?_
    intro targets' s1 _
    refine (lowerExprs_lasts values (below.lasts hbodies.2 (by omega)) s1).bind ?_
    intro values' s2 _
    split <;> trivial
  | ret values =>
    simp only [Stmt.work, workOfExprs_eq] at hfuel
    exact (lowerExprs_lasts values (below.lasts hbodies (by omega)) s).bind fun _ _ _ => trivial
  | block body =>
    obtain ⟨stmts, place⟩ := body
    simp only [Stmt.work] at hfuel
    exact (ensures_block below' hplan stmts place hinner (by omega)).bind fun _ _ _ => trivial
  | cond init test body otherwise =>
    obtain ⟨stmts, place⟩ := body
    simp only [Stmt.work, Expr.work_eq] at hfuel
    simp only [StmtForm.inner, mem_append, Option.mem_toList, or_imp, forall_and] at hinner
    rw [bodies_cond] at hbodies
    refine ((walk.header plan init s).and
      (below.header plan init s hplan hinner.1.1 (by omega))).bind ?_
    intro init' s1 hinit
    refine ((lowerExpr_threads walk.threads test s1).and
      (lowerExpr_lasts test (below.lasts hbodies (by omega)) s1)).bind ?_
    intro test' s2 htest
    have hgrows : s.settled ⊆ s2.settled := Subset.trans hinit.grows.2 htest.grows.2
    have hmono := workOfStmts_mono (returnCost_anti plan hgrows) stmts
    refine ((WalkRuns.ensures_lowerBlock (fun m _ => walk_runs env m) stmts place).and
      (ensures_block below' hplan stmts place hinner.1.2 (by omega))).bind ?_
    rintro _ s3 ⟨out, rfl, hout⟩
    cases otherwise with
    | none => trivial
    | some stmt =>
      have hstmt := hinner.2 stmt rfl
      have hmono' := stmt.work_mono (returnCost_anti plan (Subset.trans hgrows hout.grows.2))
      simp only [workOfBranch] at hfuel
      refine (WalkRuns.ensures_wrapElse stmt).bind ?_
      intro wrapped s4 hwrapped
      refine (WalkRuns.ensures_legal wrapped).bind ?_
      rintro _ s5 ⟨rfl, -⟩
      rw [ensures_bind]
      rcases hwrapped with ⟨rfl, rfl, -⟩ | ⟨rfl, rfl, _, _, _, _, hform⟩
      · exact (below.stmt plan wrapped s5 hplan hstmt (by omega)).mono (fun _ _ _ => trivial)
          fun _ h => h
      · have hcond : branchWork stmt = 4 := by
          simp only [branchWork, hform]
        have hmember := forall_mem_singleton.2 hstmt
        refine (below.stmt plan _ _ hplan ((unstuck_lasts env).throughout_block.2 hmember) ?_).mono
          (fun _ _ _ => trivial) fun _ h => h
        have hcost : returnCost plan { s3 with nextId := s3.nextId + 1 } = returnCost plan s3 := rfl
        rw [hcost]
        simp only [Stmt.work, workOfStmts_cons, workOfStmts_nil]
        omega
  | switch init tag clauses =>
    simp only [Stmt.work, workOfExpr?_eq] at hfuel
    simp only [StmtForm.inner, mem_append, Option.mem_toList, or_imp, forall_and] at hinner
    simp only [bodies_switch, mem_append, or_imp, forall_and] at hbodies
    refine ((walk.header plan init s).and
      (below.header plan init s hplan hinner.1 (by omega))).bind ?_
    intro init' s1 hinit
    refine ((lowerExpr?_threads walk.threads tag s1).and
      (lowerExpr?_lasts tag (below.lasts hbodies.1 (by omega)) s1)).bind ?_
    intro tag' s2 htag
    have hgrows : s.settled ⊆ s2.settled := Subset.trans hinit.grows.2 htag.grows.2
    have hmono := workOfCases_mono (returnCost_anti plan hgrows) clauses
    exact (below.arms plan clauses s2 hplan hinner.2 hbodies.2 (by omega)).bind fun _ _ _ => trivial
  | loop init test post body =>
    obtain ⟨stmts, place⟩ := body
    simp only [Stmt.work, workOfExpr?_eq] at hfuel
    simp only [StmtForm.inner, mem_append, Option.mem_toList, or_imp, forall_and] at hinner
    rw [bodies_loop] at hbodies
    refine ((walk.header plan init s).and
      (below.header plan init s hplan hinner.1.1 (by omega))).bind ?_
    intro init' s1 hinit
    refine ((lowerExpr?_threads walk.threads test s1).and
      (lowerExpr?_lasts test (below.lasts hbodies (by omega)) s1)).bind ?_
    intro test' s2 htest
    have hgrows : s.settled ⊆ s2.settled := Subset.trans hinit.grows.2 htest.grows.2
    have hmono := workOfHeader_mono (returnCost_anti plan hgrows) post
    refine ((walk.header plan post s2).and
      (below.header plan post s2 hplan hinner.1.2 (by omega))).bind ?_
    intro post' s3 hpost
    have hmono' := workOfStmts_mono
      (returnCost_anti plan (Subset.trans hgrows hpost.grows.2)) stmts
    exact (ensures_block below' hplan stmts place hinner.2 (by omega)).bind fun _ _ _ => trivial
  | range key value defines subject body =>
    obtain ⟨stmts, place⟩ := body
    simp only [Stmt.work, workOfExpr?_eq, Expr.work_eq] at hfuel
    simp only [bodies_range, mem_append, or_imp, forall_and] at hbodies
    refine ((lowerExpr?_threads walk.threads key s).and
      (lowerExpr?_lasts key (below.lasts hbodies.1.1 (by omega)) s)).bind ?_
    intro key' s1 hkey
    refine ((lowerExpr?_threads walk.threads value s1).and
      (lowerExpr?_lasts value (below.lasts hbodies.1.2 (by omega)) s1)).bind ?_
    intro value' s2 hvalue
    refine ((lowerExpr_threads walk.threads subject s2).and
      (lowerExpr_lasts subject (below.lasts hbodies.2 (by omega)) s2)).bind ?_
    intro subject' s3 hsubject
    have hgrows : s.settled ⊆ s3.settled :=
      Subset.trans hkey.grows.2 (Subset.trans hvalue.grows.2 hsubject.grows.2)
    have hmono := workOfStmts_mono (returnCost_anti plan hgrows) stmts
    exact (ensures_block below' hplan stmts place hinner (by omega)).bind fun _ _ _ => trivial
  | empty | jump | labeled | go | defer | send | select | typeSwitch =>
    trivial

end Suffices

/-- Fuel that exceeds the work of what the walk is given never runs out. -/
theorem fuel_suffices {env} (henv : env.Positive) (fuel : Nat) : Suffices env fuel := by
  induction fuel using Nat.strongRecOn with
  | _ fuel ih =>
    cases fuel with
    | zero => exact .zero
    | succ fuel =>
      have below (m : Nat) (hm : m ≤ fuel) : Suffices env m := ih m (Nat.lt_succ_of_le hm)
      exact {
        seq := fun plan declared stmts s hplan hstmts hfuel =>
          Suffices.seq_succ below henv hplan declared stmts hstmts hfuel
        stmt := fun plan x s hplan hx hfuel => Suffices.stmt_succ below hplan x hx hfuel
        arms := fun plan clauses s hplan hstmts hbodies hfuel =>
          (below fuel (Nat.le_refl _)).arms_succ hplan clauses hstmts hbodies hfuel
        header := fun plan x s hplan hx hfuel =>
          (below fuel (Nat.le_refl _)).header_succ henv hplan x hx hfuel }

/-! ## A bound from the size -/

section Bound

variable {bound : Nat} (hbound : 25 ≤ bound)

include hbound

set_option linter.unusedSectionVars false

attribute [local grind =] Expr.work workOfExprs Stmt.work workOfStmts workOfCases workOfSpecs
  Expr.subscripts subscriptsOfExprs Expr.weight weightOfExprs Stmt.weight weightOfStmts
  weightOfCases weightOfSpecs Nat.mul_add

mutual

/-- The work in an expression, the second evaluation of its subscripts included, is bounded by its
size. -/
theorem work_le_weight (e : Expr) :
    e.work + 10 * e.subscripts ≤ bound * e.weight := by
  match e with
  | .ident .. | .lit .. | .type .. =>
    grind
  | .funcLit _ _ _ ⟨stmts, _⟩ =>
    have hstmts : workOfStmts stmts (fun _ => 0) ≤ _ :=
      workOfStmts_le_weight (fun _ => by omega) stmts
    grind
  | .composite _ _ elems =>
    have helems := workOfExprs_le_weight elems
    grind
  | .keyValue _ left right | .index _ left right | .binary _ _ left right =>
    have hleft := work_le_weight left
    have hright := work_le_weight right
    grind
  | .paren _ inner | .selector _ inner _ | .typeAssert _ inner _ | .unary _ _ inner =>
    have hinner := work_le_weight inner
    grind
  | .slice _ base low high max =>
    have hbase := work_le_weight base
    have hlow := workOfExpr?_le_weight low
    have hhigh := workOfExpr?_le_weight high
    have hmax := workOfExpr?_le_weight max
    simp only [Expr.work, Expr.subscripts, Expr.weight, Nat.mul_add]
    omega
  | .call _ callee args _ =>
    have hcallee := work_le_weight callee
    have hargs := workOfExprs_le_weight args
    grind

theorem workOfExpr?_le_weight (e : Option Expr) :
    workOfExpr? e + 10 * subscriptsOfExpr? e ≤ bound * weightOfExpr? e := by
  match e with
  | none => exact Nat.zero_le _
  | some e => exact work_le_weight e

theorem workOfExprs_le_weight (es : List Expr) :
    workOfExprs es + 10 * subscriptsOfExprs es ≤ bound * weightOfExprs es := by
  match es with
  | [] => exact Nat.zero_le _
  | e :: es =>
    have he := work_le_weight e
    have hes := workOfExprs_le_weight es
    grind

/-- The work in a statement is bounded by its size, and by the cost of a return. -/
theorem work_le_weight_stmt {cost} (hcost : ∀ id, cost id + 25 ≤ bound)
    (stmt : Stmt) : stmt.work cost ≤ bound * stmt.weight := by
  match stmt with
  | ⟨_, _, .decl ⟨_, specs, _⟩⟩ =>
    have hspecs := workOfSpecs_le_weight specs
    grind
  | ⟨_, _, .expr e⟩ | ⟨_, _, .incDec e _⟩ | ⟨_, _, .go e⟩ | ⟨_, _, .defer e⟩ =>
    have he := work_le_weight e
    grind
  | ⟨_, _, .assign targets op values⟩ =>
    have htargets := workOfExprs_le_weight targets
    have hvalues := workOfExprs_le_weight values
    have htuple : tupleWork op targets ≤ 10 := by
      unfold tupleWork
      split
      · omega
      · split <;> omega
    have hupdate : updateWork op targets ≤ 10 * subscriptsOfExprs targets := by
      unfold updateWork
      split <;> omega
    grind
  | ⟨id, _, .ret values⟩ =>
    have hvalues := workOfExprs_le_weight values
    have hid := hcost id
    grind
  | ⟨_, _, .block ⟨stmts, _⟩⟩ =>
    have hstmts := workOfStmts_le_weight hcost stmts
    grind
  | ⟨_, _, .cond init test ⟨stmts, _⟩ otherwise⟩ =>
    have hinit := workOfHeader_le_weight hcost init
    have htest := work_le_weight test
    have hstmts := workOfStmts_le_weight hcost stmts
    have hotherwise := workOfBranch_le_weight hcost otherwise
    simp only [Stmt.work, Stmt.weight, Nat.mul_add]
    omega
  | ⟨_, _, .switch init tag clauses⟩ =>
    have hinit := workOfHeader_le_weight hcost init
    have htag := workOfExpr?_le_weight tag
    have hclauses := workOfCases_le_weight hcost clauses
    grind
  | ⟨_, _, .loop init test post ⟨stmts, _⟩⟩ =>
    have hinit := workOfHeader_le_weight hcost init
    have htest := workOfExpr?_le_weight test
    have hpost := workOfHeader_le_weight hcost post
    have hstmts := workOfStmts_le_weight hcost stmts
    simp only [Stmt.work, Stmt.weight, Nat.mul_add]
    omega
  | ⟨_, _, .range key value _ subject ⟨stmts, _⟩⟩ =>
    have hkey := workOfExpr?_le_weight key
    have hvalue := workOfExpr?_le_weight value
    have hsubject := work_le_weight subject
    have hstmts := workOfStmts_le_weight hcost stmts
    simp only [Stmt.work, Stmt.weight, Nat.mul_add]
    omega
  | ⟨_, _, .empty⟩ | ⟨_, _, .jump ..⟩ | ⟨_, _, .labeled ..⟩ | ⟨_, _, .send ..⟩
  | ⟨_, _, .typeSwitch ..⟩ | ⟨_, _, .select _⟩ =>
    grind

theorem workOfHeader_le_weight {cost} (hcost : ∀ id, cost id + 25 ≤ bound)
    (stmt : Option Stmt) : workOfHeader stmt cost ≤ 5 + bound * weightOfStmt? stmt := by
  match stmt with
  | none => exact Nat.zero_le _
  | some stmt => exact Nat.add_le_add_left (work_le_weight_stmt hcost stmt) 5

theorem workOfBranch_le_weight {cost} (hcost : ∀ id, cost id + 25 ≤ bound)
    (stmt : Option Stmt) : workOfBranch stmt cost ≤ 4 + bound * weightOfStmt? stmt := by
  match stmt with
  | none => exact Nat.zero_le _
  | some stmt =>
    have hbranch : branchWork stmt ≤ 4 := by
      unfold branchWork
      split <;> omega
    exact Nat.add_le_add hbranch (work_le_weight_stmt hcost stmt)

theorem workOfStmts_le_weight {cost} (hcost : ∀ id, cost id + 25 ≤ bound)
    (stmts : List Stmt) : workOfStmts stmts cost ≤ bound * weightOfStmts stmts := by
  match stmts with
  | [] => exact Nat.zero_le _
  | stmt :: stmts =>
    have hstmt := work_le_weight_stmt hcost stmt
    have hstmts := workOfStmts_le_weight hcost stmts
    grind

theorem workOfCases_le_weight {cost} (hcost : ∀ id, cost id + 25 ≤ bound)
    (clauses : List CaseClause) : workOfCases clauses cost ≤ bound * weightOfCases clauses := by
  match clauses with
  | [] => exact Nat.zero_le _
  | ⟨none, body, _⟩ :: clauses =>
    have hbody := workOfStmts_le_weight hcost body
    have hclauses := workOfCases_le_weight hcost clauses
    grind
  | ⟨some exprs, body, _⟩ :: clauses =>
    have hexprs := workOfExprs_le_weight exprs
    have hbody := workOfStmts_le_weight hcost body
    have hclauses := workOfCases_le_weight hcost clauses
    grind

theorem workOfSpecs_le_weight (specs : List Spec) :
    workOfSpecs specs ≤ bound * weightOfSpecs specs := by
  match specs with
  | [] => exact Nat.zero_le _
  | .value _ _ [] :: specs | .typeName .. :: specs =>
    have hspecs := workOfSpecs_le_weight specs
    grind
  | .value _ _ (value :: values) :: specs =>
    have hvalue := work_le_weight value
    have hvalues := workOfExprs_le_weight values
    have hspecs := workOfSpecs_le_weight specs
    simp only [workOfSpecs, weightOfSpecs, weightOfExprs, Nat.mul_add]
    omega

end

end Bound

/-! ## A file -/

section File

variable {env : Env} {fuel : Nat}

/-- A named result that moved has an output parameter of its own. -/
theorem length_named_le {func plan} (h : (lowerHead func).plan = some plan) :
    plan.named.length ≤ plan.outs.length := by
  simp only [lowerHead] at h
  split at h
  · contradiction
  · cases h
    simp only [length_flatMap]
    refine sum_le_sum ?_
    rintro ⟨entry, field⟩ -
    simp [Entry.positions, Entry.outNames]

/-- The number of stores a return asks for is bounded by the number of results. -/
theorem returnCost_le (func : FuncDecl) (s : State) (id : NodeId) :
    returnCost (lowerHead func).plan s id ≤ 8 * Field.totalArity func.results + 5 := by
  cases hplan : (lowerHead func).plan with
  | none => exact Nat.zero_le _
  | some plan =>
    have hnamed := length_named_le hplan
    have houts : plan.outs.length ≤ plan.total := by
      have hlength := congrArg length (ascending_of_lowerHead hplan)
      simp only [length_append, length_map, length_range] at hlength
      omega
    rw [(plan_of_lowerHead hplan).1, ← totalArity_eq] at houts
    simp only [returnCost]
    split <;> omega

theorem requireLegal_lasts (reports : List Diagnostic) :
    Yields (requireLegal reports) (fun _ => True) Halt.IsFatal := by
  cases reports with
  | nil => exact .pure trivial
  | cons report _ => exact .fail trivial

/-- The work in a body, with a return costing at most a multiple of the number of results, is
less than the square of the size of the file. -/
theorem work_lt_square (results : Nat) {size weight work}
    (hwork : work ≤ 4 + (8 * results + 30) * size) (hweight : results + size ≤ weight) :
    work + 1 ≤ 64 * ((weight + 4) * (weight + 4)) := by
  have hproduct : results * size ≤ weight * weight :=
    Nat.mul_le_mul (by omega) (by omega)
  have hsquare : (weight + 4) * (weight + 4) = weight * weight + 8 * weight + 16 := by ring
  have hexpand : (8 * results + 30) * size = 8 * (results * size) + 30 * size := by ring
  omega

theorem lowerFunc_lasts (henv : env.Positive) {func weight}
    (hstmts : ∀ x ∈ (Decl.func func).stmts, x.Unstuck) (hweight : (Decl.func func).weight ≤ weight)
    (hfuel : 64 * ((weight + 4) * (weight + 4)) ≤ fuel) :
    Yields (lowerFunc fuel env func) (fun _ => True) Halt.IsFatal := by
  have hbody : (lowerHead func).func.body = func.body := rfl
  refine (requireLegal_lasts _).bind fun _ _ => ?_
  dsimp only
  rw [hbody]
  cases hfunc : func.body with
  | none => exact .pure trivial
  | some body =>
    simp only [Decl.stmts, hfunc, Option.map_some, Option.getD_some] at hstmts
    simp only [Decl.weight, hfunc, Option.map_some, Option.getD_some] at hweight
    intro s
    refine (ensures_declareAny _ _).bind ?_
    rintro locals s1 ⟨hdeclaration, -⟩
    have hlocals : ∀ x ∈ locals, Declares body.span x := fun x hx =>
      declares_of_mem (hdeclaration ▸ hx)
    have hcount : locals.length ≤ 1 := hdeclaration ▸ declaration_length ..
    have hlocals' : ∀ x ∈ locals, x.Unstuck := fun x hx =>
      (unstuck_lasts env).of_isPlain
        (by obtain ⟨-, _, hform⟩ := hlocals x hx; simp [hform, isPlain])
        (by simp [(hlocals x hx).bodies])
    refine Ensures.bind ((fuel_suffices henv fuel).seq (lowerHead func).plan _ _ s1 ?_
      (forall_mem_append.2 ⟨hlocals', hstmts⟩) ?_) fun _ _ _ => trivial
    · intro plan hplan
      exact ascending_of_lowerHead hplan
    · refine Nat.le_trans (work_lt_square _ ?_ hweight) hfuel
      have hdeclared := work_of_declares (returnCost (lowerHead func).plan s1) hlocals hcount
      have hstmts' : workOfStmts body.stmts (returnCost (lowerHead func).plan s1) ≤
          (8 * Field.totalArity func.results + 30) * weightOfStmts body.stmts := by
        refine workOfStmts_le_weight (by omega) ?_ body.stmts
        intro id
        have hcost := returnCost_le func s1 id
        omega
      rw [workOfStmts_append]
      omega

theorem lowerDecl_lasts (henv : env.Positive) {decl weight} (hstmts : ∀ x ∈ decl.stmts, x.Unstuck)
    (hweight : decl.weight ≤ weight) (hfuel : 64 * ((weight + 4) * (weight + 4)) ≤ fuel) :
    Yields (lowerDecl fuel env decl) (fun _ => True) Halt.IsFatal := by
  cases decl with
  | func decl => exact (lowerFunc_lasts henv hstmts hweight hfuel).bind fun _ _ => .pure trivial
  | gen decl =>
    refine (requireLegal_lasts _).bind fun _ _ => ?_
    have hbodies : ∀ body ∈ bodiesOfExprs (decl.specs.flatMap Spec.values), ∀ x ∈ body,
        x.Unstuck := fun body hbody x hx => hstmts x (mem_flatten.2 ⟨body, hbody, hx⟩)
    have hwork : workOfBodies (bodiesOfExprs (decl.specs.flatMap Spec.values)) ≤ fuel := by
      have hle := workOfSpecs_le_weight (Nat.le_refl 25) decl.specs
      simp only [workOfSpecs_eq, workOfExprs_eq] at hle
      have hspecs : weightOfSpecs decl.specs ≤ weight := hweight
      have hsquare := work_lt_square 0 (Nat.le_refl _) (by simpa using hspecs)
      omega
    simp only [lowerGenDecl, bind_assoc, pure_bind]
    exact (lowerSpecs_lasts decl.specs ((fuel_suffices henv fuel).lasts hbodies hwork)).bind
      fun _ _ => .pure trivial

theorem weight_le_of_mem {decls : List Decl} {decl} (h : decl ∈ decls) :
    decl.weight ≤ decls.foldr (fun decl n => decl.weight + n) 0 := by
  induction decls with
  | nil => simp at h
  | cons first decls ih =>
    rw [foldr_cons]
    rcases mem_cons.1 h with rfl | h
    · exact Nat.le_add_right _ _
    · exact Nat.le_trans (ih h) (Nat.le_add_left _ _)

end File

end Lowering

open Lowering

/-- The lowering of the file comes to an end: with the fuel it is given, and with any more, it gives
one and the same answer, which is a lowered file or a report. -/
def SourceFile.LoweringEnds (file : SourceFile) (resolver : Resolver)
    (options : Lowering.Options) : Prop :=
  ∃ answer, answer ≠ .error .outOfFuel ∧
    ∀ fuel, file.loweringFuel ≤ fuel → file.lowerWith fuel resolver options = answer

theorem SourceFile.loweringEnds_of_unstuck {file : SourceFile}
    (h : ∀ x, file.Holds x → x.form.hasStuckPost = false) (resolver : Resolver)
    (options : Lowering.Options) : file.LoweringEnds resolver options := by
  have henv := positive_shapesOf file resolver options
  have hlasts : file.lowerWith file.loweringFuel resolver options ≠ .error .outOfFuel := by
    have hdecls : Yields (file.decls.mapM (lowerDecl file.loweringFuel
        ⟨resolver, options, shapesOf file⟩)) (fun out => ∀ decl ∈ out, True) Halt.IsFatal := by
      refine .mapM fun decl hdecl => ?_
      refine lowerDecl_lasts henv ?_ (weight_le_of_mem hdecl) (Nat.le_refl _)
      intro x hx literal y hy
      exact h y ⟨decl, hdecl, x, hx, literal, hy⟩
    exact fun hout => (lowerWith_outcome (hdecls _)).2 _ hout
  exact ⟨_, hlasts, fun fuel hfuel => lowerWith_eq_of_le hlasts hfuel⟩

/-- The form is a loop whose post statement is `=` from one value that is not a call to several
targets, a blank one among them. -/
def StmtForm.hasTuplePost : StmtForm → Bool
  | .loop _ _ (some ⟨_, _, .assign targets .assign [value]⟩) _ =>
    1 < targets.length && targets.any Expr.isBlank && !value.isCall
  | _ => false

/-- A compound assignment has a single target. -/
def StmtForm.UpdatesOne : StmtForm → Prop
  | .assign targets op _ => op.combines?.isSome → targets.length = 1
  | _ => True

theorem hasStuckPost_of_updatesOne {form : StmtForm} (h : form.hasTuplePost = false)
    (hpost : ∀ x ∈ form.inner, x.form.UpdatesOne) : form.hasStuckPost = false := by
  unfold StmtForm.hasStuckPost
  split
  · rename_i init test post body
    by_contra hstuck
    obtain ⟨id, span, form⟩ := post
    have hpost' := hpost _ (by simp [StmtForm.inner]; exact .inr (.inl rfl))
    cases form with
    | assign targets op values =>
      obtain ⟨value, rfl, hdefine, hcount, hblank, hcall⟩ :=
        isStuck_iff.1 (by simpa using hstuck)
      by_cases hop : op = .assign
      · subst hop
        simp [StmtForm.hasTuplePost, hcount, hblank, hcall rfl] at h
      · have hone : targets.length = 1 := hpost' (by cases op <;> simp_all [AssignOp.combines?])
        omega
    | _ => simp [StmtForm.isStuck] at hstuck
  · rfl

/-- Every parsed file has it so. -/
theorem SourceFile.Holds.updatesOne {options index source file}
    (hfile : ofSource options index source = .ok file) {x} (h : file.Holds x) :
    x.form.UpdatesOne := by
  obtain ⟨a, b, -, hdecls⟩ := ofSource_placed hfile
  have hshaped : x.form.Shaped := (h.placed hdecls).formed
  cases hform : x.form with
  | assign targets op values =>
    rw [hform] at hshaped
    exact fun hop => (hshaped.1 hop).1
  | _ => trivial

/-- The lowering of every file in which no post statement gives one value to several targets, a
blank one among them, comes to an end, whatever the resolver and the options are; a post statement
may define its targets, and the value may be a call that is assigned with `=`. In a parsed file a
compound assignment has a single target, so only post statements with `=` are left out there. -/
theorem SourceFile.lowering_ends (file : SourceFile) (resolver : Resolver)
    (options : Lowering.Options) :
    ((∀ x, file.Holds x → x.form.hasStuckPost = false) → file.LoweringEnds resolver options) ∧
      ∀ scan index source, ofSource scan index source = .ok file →
        (∀ x, file.Holds x → x.form.hasTuplePost = false) →
          file.LoweringEnds resolver options := by
  refine ⟨fun hposts => loweringEnds_of_unstuck hposts resolver options, ?_⟩
  intro scan index source hfile hposts
  refine loweringEnds_of_unstuck (fun x hx => ?_) resolver options
  exact hasStuckPost_of_updatesOne (hposts x hx) fun y hy => (hx.inner hy).updatesOne hfile

/-- A post statement that gives a value to `a` and to a blank. -/
def blankStep (op : AssignOp) (value : Expr) : Stmt :=
  ⟨1, ⟨0, 38, 48⟩, .assign [.ident ⟨0, 38, 39⟩ "a", .ident ⟨0, 41, 42⟩ "_"] op [value]⟩

/-- A file with one loop, which has that post statement and an empty body. -/
def steppingWith (op : AssignOp) (value : Expr) : SourceFile :=
  overElements (.loop none none (some (blankStep op value)) ⟨[], ⟨0, 49, 51⟩⟩)

/-- The file holds the loop and its post statement, and nothing else. -/
theorem holds_steppingWith {op value x} (hvalue : value.bodies = [])
    (h : (steppingWith op value).Holds x) :
    x.form = .loop none none (some (blankStep op value)) ⟨[], ⟨0, 49, 51⟩⟩ ∨
      x = blankStep op value := by
  obtain ⟨decl, hdecl, y, hy, literal, hx⟩ := h
  obtain rfl := mem_singleton.1 hdecl
  obtain rfl := mem_singleton.1 hy
  cases hx with
  | self => exact .inl rfl
  | part hz hx =>
    obtain rfl := mem_singleton.1 hz
    cases hx with
    | self => exact .inr rfl
    | part hz => simp [blankStep, StmtForm.inner] at hz
    | body hbody =>
      simp [blankStep, StmtForm.bodies, StmtForm.exprs, bodiesOfExprs, Expr.bodies,
        hvalue] at hbody
  | body hbody => simp [StmtForm.bodies, StmtForm.exprs, bodiesOfExprs] at hbody

/-- `for ; ; a, _ = g() {}`, whose post statement asks for a declaration. -/
def steppingByCall : SourceFile :=
  steppingWith .assign (.call ⟨0, 45, 48⟩ (.ident ⟨0, 45, 46⟩ "g") [] false)

theorem lowering_ends_steppingByCall :
    steppingByCall.LoweringEnds (Table.ofFile steppingByCall).resolver {} := by
  refine (SourceFile.lowering_ends _ _ _).1 fun x hx => ?_
  obtain hform | rfl := holds_steppingWith rfl hx
  · rw [hform]
    rfl
  · rfl

/-! ## A loop that is visited for ever -/

section Stuck

variable (env : Env) (fuel : Nat) (s : State)

/-- `a, _ += b` -/
def blankUpdate : Stmt := blankStep .add (.ident ⟨0, 47, 48⟩ "b")

/-- `for ; ; a, _ += b {}`, which no source has: a compound assignment is parsed with one target. -/
def steppingByUpdate : SourceFile := steppingWith .add (.ident ⟨0, 47, 48⟩ "b")

/-- No rule has anything to do at a compound assignment to a blank. So the loop is visited again as
it was, and the walk takes all the fuel there is. -/
theorem lowerSeq_steppingByUpdate (declared : List String) (id : NodeId) (span : Span) :
    lowerSeq fuel ⟨env, none⟩ declared
      [⟨id, span, .loop none none (some blankUpdate) ⟨[], ⟨0, 49, 51⟩⟩⟩] s =
      .error .outOfFuel := by
  induction fuel with
  | zero => rfl
  | succ fuel ih =>
    match fuel with
    | 0 | 1 | 2 => rfl
    | fuel + 3 => exact ih

theorem lowerFunc_steppingByUpdate (func : FuncDecl) (h : .func func ∈ steppingByUpdate.decls) :
    Ensures (lowerFunc fuel env func) (fun _ _ => False) (· = .outOfFuel) s := by
  obtain rfl := Decl.func.inj (mem_singleton.1 h)
  refine .bind (show Ensures (requireLegal _) (fun _ s' => s = s') _ s from rfl) ?_
  rintro _ _ rfl
  have hlocals : Ensures (declareAny [] ⟨0, 31, 47⟩) (fun locals s' => [] = locals ∧ s = s')
      (· = .outOfFuel) s := ⟨rfl, rfl⟩
  refine hlocals.bind ?_
  rintro _ _ ⟨rfl, rfl⟩
  have hseq := lowerSeq_steppingByUpdate env fuel s
  refine .bind (show Ensures _ (fun _ _ => False) _ _ from ?_) fun _ _ => False.elim
  refine .intro (fun stmts s' hok => ?_) fun halt herror => ?_
  · cases (hseq ..).symm.trans hok
  · cases (hseq ..).symm.trans herror
    rfl

theorem lowerWith_steppingByUpdate (resolver : Resolver) (options : Lowering.Options) :
    steppingByUpdate.lowerWith fuel resolver options = .error .outOfFuel := by
  have hdecls : Ensures (steppingByUpdate.decls.mapM
      (lowerDecl fuel ⟨resolver, options, shapesOf steppingByUpdate⟩)) (fun _ _ => False)
      (· = .outOfFuel) { nextId := steppingByUpdate.nextId } := by
    have hfunc := lowerFunc_steppingByUpdate ⟨resolver, options, shapesOf steppingByUpdate⟩ fuel
      { nextId := steppingByUpdate.nextId } _ (mem_singleton.2 rfl)
    exact .bind (hfunc.bind fun _ _ => False.elim) fun _ _ => False.elim
  obtain ⟨hok, herror⟩ := lowerWith_outcome hdecls
  cases hrun : steppingByUpdate.lowerWith fuel resolver options with
  | error halt => rw [herror halt hrun]
  | ok lowered =>
    obtain ⟨s, hfalse, -⟩ := hok lowered hrun
    exact hfalse.elim

end Stuck

/-- No post statement of the file is an assignment with `=`, and its lowering does not end. -/
theorem lowering_stuck_steppingByUpdate :
    (∀ x, steppingByUpdate.Holds x → x.form.hasTuplePost = false) ∧
      ∀ resolver options, ¬ steppingByUpdate.LoweringEnds resolver options ∧
        ∀ fuel, steppingByUpdate.lowerWith fuel resolver options = .error .outOfFuel := by
  refine ⟨fun x hx => ?_, fun resolver options => ⟨?_, fun fuel => ?_⟩⟩
  · obtain hform | rfl := holds_steppingWith rfl hx
    · rw [hform]
      rfl
    · rfl
  · rintro ⟨answer, hanswer, hends⟩
    exact hanswer ((hends _ (Nat.le_refl _)).symm.trans (lowerWith_steppingByUpdate ..))
  · exact lowerWith_steppingByUpdate fuel resolver options

end ScriptLowering
