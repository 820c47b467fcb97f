import ScriptLowering.Proofs.Work

/-!
# Runs leave less work

Every run leaves at most the work it was given (`Walks.lighter`). A visit that is followed by
another one of what it left has to leave less, and the rules do. The post statement of a loop is the
one place where a run may leave all the work there was and the loop is visited again: when the post
statement assigns one value to several targets, a blank one among them, and that value is no call,
no rule completes the assignment, and yet the walk goes on asking for the declarations it needs. No
run makes such a loop out of another (`Walks.isStuck_post`, `Walks.hasStuckPost`).
-/

namespace ScriptLowering

open List

variable {place span : Span} {es es' targets targets' values : List Expr} {new : List Stmt}
  {e e' read : Expr} {op : AssignOp} {form form' inner : StmtForm} {init x : Stmt} {temp : String}

namespace Lowering

/-! ## Returns -/

/-- The work of settling a return: a store for each value or name that may move, and the call that
may store them all. -/
def returnCost (plan : Option ReturnPlan) (s : State) (id : NodeId) : Nat :=
  match plan with
  | none => 0
  | some plan => if id ∈ s.settled then 0 else 4 * (plan.outs.length + plan.named.length) + 5

theorem returnCost_anti (plan : Option ReturnPlan) {s s'} (h : s.settled ⊆ s'.settled)
    (id : NodeId) : returnCost plan s' id ≤ returnCost plan s id := by
  cases plan with
  | none => exact Nat.le_refl _
  | some plan =>
    by_cases hid : id ∈ s.settled
    · simp [returnCost, hid, h hid]
    · simp only [returnCost, hid, if_false]
      split <;> omega

section Returns

variable {env : Env} {plan : ReturnPlan} {stmt : Stmt} {s s' : State} (cost : NodeId → Nat)

theorem Stores.work {store} (h : Stores span store stmt) : stmt.work cost = 4 + store.2.work := by
  obtain ⟨id, span', form⟩ := stmt
  obtain ⟨rfl, rfl⟩ := h
  simp [Stmt.work, tupleWork, updateWork, AssignOp.combines?, Expr.work]

theorem work_of_stores {moved stores} (h : Forall₂ (Stores span) moved stores) :
    workOfStmts stores cost = 4 * moved.length + workOfExprs (moved.map Prod.snd) := by
  induction h with
  | nil => rfl
  | cons hstore _ ih =>
    simp only [workOfStmts_cons, hstore.work cost, ih, length_cons, map_cons,
      workOfExprs_cons]
    omega

/-- The values that move are those that are not kept. -/
theorem ReturnPlan.Ascending.moved_values (h : plan.Ascending) (hlen : values.length = plan.total) :
    (plan.moved values).map Prod.snd = values.drop (if plan.keepsFirst then 1 else 0) := by
  have hpos := h.length_kept hlen
  generalize (if plan.keepsFirst then 1 else 0) = k at hpos ⊢
  have hmoved := moved_eq_zip (values.take k) (values.drop k) hpos
  have houts : (values.drop k).length ≤ (plan.outs.map Prod.snd).length := by
    have hlength := congrArg length hpos
    rw [length_map, length_range'] at hlength
    exact Nat.le_of_eq (by rw [length_map, hlength])
  rw [take_append_drop] at hmoved
  rw [ReturnPlan.moved, hmoved, map_snd_zip houts]

theorem workOfExprs_idents (span : Span) (names : List String) :
    workOfExprs (names.map (Expr.ident span)) = 0 := by
  induction names with
  | nil => rfl
  | cons name names ih => simpa [Expr.work] using ih

/-- What a return becomes is paid for by the work of settling it. -/
theorem Settles.work (h : Settles env plan stmt s new s') (hplan : plan.Ascending) {cost'}
    (hpaid : cost' stmt.id = 0)
    (hcost : 4 * (plan.outs.length + plan.named.length) + 5 ≤ cost stmt.id) :
    workOfStmts new cost' + 1 ≤ stmt.work cost := by
  obtain ⟨id, span, form⟩ := stmt
  dsimp only at hpaid hcost
  cases h with
  | @values values _ _ hform hlen hstores =>
    obtain rfl : form = _ := hform
    have hwork := work_of_stores cost' hstores
    rw [hplan.moved_values hlen] at hwork
    have hmoved : (plan.moved values).length ≤ plan.outs.length := length_filterMap_le ..
    have hall := workOfExprs_append (values.take (if plan.keepsFirst then 1 else 0))
      (values.drop (if plan.keepsFirst then 1 else 0))
    rw [take_append_drop] at hall
    simp only [workOfStmts_append, workOfStmts_cons, workOfStmts_nil, Stmt.work, hwork, hpaid]
    omega
  | names hform _ _ hstores =>
    obtain rfl : form = _ := hform
    have hwork := work_of_stores cost' hstores
    have hnames : (plan.movedNames span).map Prod.snd =
        (plan.named.reverse.map Prod.snd).map (Expr.ident span) := by
      simp [ReturnPlan.movedNames]
    have hlength : (plan.movedNames span).length = plan.named.length := by
      simp [ReturnPlan.movedNames]
    rw [hnames, workOfExprs_idents, hlength] at hwork
    simp only [workOfStmts_append, workOfStmts_cons, workOfStmts_nil, Stmt.work, hwork,
      workOfExprs_nil, hpaid]
    omega
  | call hform | callOnly hform =>
    obtain rfl : form = _ := hform
    simp only [workOfStmts_cons, workOfStmts_nil, Stmt.work, workOfExprs_cons, workOfExprs_nil,
      Expr.work, workOfExprs_append, workOfExprs_idents, hpaid]
    omega

end Returns

/-! ## Entering expressions -/

section Expressions

variable {env : Env} {lowerBody : SequenceLowering}

theorem subscripts_lowerBinary (span : Span) (op : BinaryOp) (left right : Expr) :
    (lowerBinary span op left right).subscripts = left.subscripts + right.subscripts := by
  unfold lowerBinary
  split <;> rfl

theorem subscripts_complement (values : List Expr) :
    subscriptsOfExprs (values.map fun value => complement value.span value) =
      subscriptsOfExprs values := by
  induction values with
  | nil => rfl
  | cons value values ih => simpa [complement, Expr.subscripts] using ih

theorem subscripts_chain {s s'}
    (h : Chain (fun e e' _ _ => e'.subscripts = e.subscripts) es es' s s') :
    subscriptsOfExprs es' = subscriptsOfExprs es := by
  induction h with
  | nil => rfl
  | cons he _ ih => simp [he, ih]

/-- No subscript is added or removed where an expression is entered. -/
theorem enters_subscripts : Enters env lowerBody (fun _ => True) (fun _ => True)
    (fun e e' _ _ => e'.subscripts = e.subscripts) (fun _ => True) where
  parts _ _ _ := trivial
  keeps _ _ := trivial
  body _ _ := .intro (fun _ _ _ => rfl) fun _ _ => trivial
  node _ _ _ hes hfill := by
    have hparts := subscripts_chain hes
    cases hfill <;> simp_all [Expr.parts, Expr.subscripts, subscripts_lowerBinary]
    omega
  stop _ _ := trivial

theorem lowerExpr_subscripts (e : Expr) (s : State) :
    Ensures (lowerExpr env lowerBody e) (fun e' _ => e'.subscripts = e.subscripts)
      (fun _ => True) s :=
  enters_subscripts.expr e trivial trivial

theorem lowerExpr?_subscripts (e : Option Expr) (s : State) :
    Ensures (lowerExpr? env lowerBody e) (fun e' _ => subscriptsOfExpr? e' = subscriptsOfExpr? e)
      (fun _ => True) s := by
  refine (enters_subscripts.expr? (fun _ _ => trivial) trivial).mono (fun e' s' h => ?_) fun _ => id
  simpa using subscripts_chain h

theorem lowerExprs_subscripts (es : List Expr) (s : State) :
    Ensures (lowerExprs env lowerBody es)
      (fun es' _ => subscriptsOfExprs es' = subscriptsOfExprs es) (fun _ => True) s :=
  (enters_subscripts.exprs (fun _ _ => trivial) trivial).mono (fun _ _ => subscripts_chain)
    fun _ => id

theorem lowerExprs_length (es : List Expr) (s : State) :
    Ensures (lowerExprs env lowerBody es) (fun es' _ => es'.length = es.length)
      (fun _ => True) s := by
  refine .intro ?_ fun _ _ => trivial
  intro es' s' hes
  exact (lowerExprs_forall₂ hes).length_eq.symm

theorem lowerSpecs_subscripts (specs : List Spec) (s : State) :
    Ensures (lowerSpecs env lowerBody specs) (fun specs' _ => valued specs' = valued specs ∧
      subscriptsOfExprs (specs'.flatMap Spec.values) =
        subscriptsOfExprs (specs.flatMap Spec.values)) (fun _ => True) s := by
  refine (enters_subscripts.specs (fun _ _ => trivial) trivial).mono (fun specs' s' h => ?_)
    fun _ => id
  refine ⟨?_, subscripts_chain h.values⟩
  induction h with
  | nil => rfl
  | value hvalues _ ih => cases hvalues <;> simp [ih]
  | typeName _ ih => simp [ih]

variable {s s' : State} {cost cost' : NodeId → Nat}

theorem lowerExpr_work (h : lowerExpr env lowerBody e s = .ok (e', s'))
    (hbodies : workOfBodies e'.bodies ≤ workOfBodies e.bodies) : e'.work ≤ e.work := by
  have hsub := (lowerExpr_subscripts e s).of_ok h
  rw [e'.work_eq, e.work_eq]
  omega

theorem lowerExpr?_work {e e'} (h : lowerExpr? env lowerBody e s = .ok (e', s'))
    (hbodies : workOfBodies (bodiesOfExpr? e') ≤ workOfBodies (bodiesOfExpr? e)) :
    workOfExpr? e' ≤ workOfExpr? e := by
  have hsub := (lowerExpr?_subscripts e s).of_ok h
  rw [workOfExpr?_eq e', workOfExpr?_eq e]
  omega

theorem lowerLabel_work {exprs exprs'} (h : lowerLabel env lowerBody exprs s = .ok (exprs', s'))
    (hbodies : workOfBodies (bodiesOfExprs (exprs'.getD [])) ≤
      workOfBodies (bodiesOfExprs (exprs.getD []))) :
    workOfExprs (exprs'.getD []) ≤ workOfExprs (exprs.getD []) := by
  cases exprs with
  | none =>
    cases h
    exact Nat.le_refl _
  | some es =>
    obtain ⟨es', s1, hes, h⟩ := bind_eq_ok h
    cases h
    have hsub := (lowerExprs_subscripts es s).of_ok hes
    rw [workOfExprs_eq (Option.getD (some es') []), workOfExprs_eq (Option.getD (some es) [])]
    dsimp only [Option.getD] at hbodies ⊢
    omega

theorem tupleWork_congr {op'} (hop : op' = .define ↔ op = .define)
    (hlen : targets'.length = targets.length) : tupleWork op' targets' = tupleWork op targets := by
  simp only [tupleWork, hlen, hop]

theorem updateWork_congr {op'} (hop : op'.combines?.isSome = op.combines?.isSome)
    (hsub : subscriptsOfExprs targets' = subscriptsOfExprs targets) :
    updateWork op' targets' = updateWork op targets := by
  simp only [updateWork, hsub, hop]

/-- Entering a statement that holds no statements adds no work to it. -/
theorem LowersPlain.work (h : LowersPlain env lowerBody form form' s s')
    (hbodies : workOfBodies form'.bodies ≤ workOfBodies form.bodies) (id : NodeId)
    (hcost : cost' id ≤ cost id) (span : Span) :
    Stmt.work ⟨id, span, form'⟩ cost' ≤ Stmt.work ⟨id, span, form⟩ cost := by
  unfold StmtForm.bodies at hbodies
  cases h with
  | @decl _ specs _ _ _ _ h =>
    obtain ⟨hvalued, hsub⟩ := (lowerSpecs_subscripts specs s).of_ok h
    simp only [StmtForm.exprs] at hbodies
    simp only [Stmt.work, workOfSpecs_eq, workOfExprs_eq (flatMap _ _)]
    omega
  | @expr e _ _ _ h | @incDec e _ _ _ _ h =>
    have hsub := (lowerExpr_subscripts e s).of_ok h
    simp only [StmtForm.exprs, bodiesOfExprs, append_nil] at hbodies
    simp only [Stmt.work, Expr.work_eq]
    omega
  | @assign targets targets' op values _ _ s1 _ _ htargets hvalues =>
    have htuple : tupleWork op targets' = tupleWork op targets :=
      tupleWork_congr Iff.rfl ((lowerExprs_length targets s).of_ok htargets)
    have hsub := (lowerExprs_subscripts targets s).of_ok htargets
    have hupdate : updateWork op targets' = updateWork op targets := updateWork_congr rfl hsub
    have hsub' := (lowerExprs_subscripts values s1).of_ok hvalues
    simp only [StmtForm.exprs, bodiesOfExprs_append, workOfBodies_append] at hbodies
    simp only [Stmt.work, workOfExprs_eq, htuple, hupdate]
    omega
  | @andNot targets targets' values _ _ s1 _ htargets hvalues =>
    have htuple : tupleWork .bitAnd targets' = tupleWork .andNot targets :=
      tupleWork_congr (by simp) ((lowerExprs_length targets s).of_ok htargets)
    have hsub := (lowerExprs_subscripts targets s).of_ok htargets
    have hupdate : updateWork .bitAnd targets' = updateWork .andNot targets :=
      updateWork_congr rfl hsub
    have hsub' := (lowerExprs_subscripts values s1).of_ok hvalues
    simp only [StmtForm.exprs, bodiesOfExprs_append, workOfBodies_append, bodies_complement]
      at hbodies
    simp only [Stmt.work, workOfExprs_eq, htuple, hupdate, subscripts_complement, bodies_complement]
    omega
  | @ret values _ _ _ h =>
    have hsub := (lowerExprs_subscripts values s).of_ok h
    simp only [StmtForm.exprs] at hbodies
    simp only [Stmt.work, workOfExprs_eq]
    omega
  | empty | jump => exact Nat.le_refl _

end Expressions

/-! ## Whole runs -/

/-- At most the work that the task was given is left. -/
def Task.Lighter (s s' : State) : Task → Prop
  | .seq plan stmts out | .each plan stmts out =>
    workOfStmts out (returnCost plan s') ≤ workOfStmts stmts (returnCost plan s)
  | .stmt plan x y => y.work (returnCost plan s') ≤ x.work (returnCost plan s)
  | .header plan x y => workOfHeader y (returnCost plan s') ≤ workOfHeader x (returnCost plan s)
  | .branch plan x y => workOfBranch y (returnCost plan s') ≤ workOfBranch x (returnCost plan s)
  | .arms plan clauses out =>
    workOfCases out (returnCost plan s') ≤ workOfCases clauses (returnCost plan s)
  | .bodies bs bs' => workOfBodies bs' ≤ workOfBodies bs

section Runs

variable {env : Env} {stmt : Stmt} {s s' : State} (cost : NodeId → Nat)

/-- A block for an initializer is paid for by the header. -/
theorem withoutInit_work (id id' : NodeId) (span place : Span)
    (h : stmt.form.withoutInit = some (init, inner)) :
    Stmt.work ⟨id, span, .block ⟨[init, ⟨id', span, inner⟩], place⟩⟩ cost + 1 ≤ stmt.work cost := by
  obtain ⟨id0, span0, form⟩ := stmt
  cases StmtForm.opens h with
  | switch =>
    simp only [Stmt.work, workOfStmts_cons, workOfStmts_nil, workOfHeader]
    omega
  | cond | loop =>
    cases ‹Block›
    simp only [Stmt.work, workOfStmts_cons, workOfStmts_nil, workOfHeader]
    omega

/-- An assignment behind a declaration is paid for by the value of the declaration. -/
theorem split_work {names type value} (id : NodeId)
    (h : stmt.form = .decl ⟨.var, [.value names type [value]], span⟩)
    (hform : Divided names stmt.span form) :
    Stmt.work ⟨stmt.id, stmt.span, form⟩ cost + Stmt.work ⟨id, stmt.span,
      .assign (names.map fun name => .ident name.span name.val) .assign [value]⟩ cost + 1 ≤
      stmt.work cost := by
  obtain ⟨id0, span0, form0⟩ := stmt
  obtain rfl : form0 = _ := h
  have hfront : Stmt.work ⟨id0, span0, form⟩ cost = 4 := by
    rcases hform with rfl | ⟨vars, -, rfl⟩
    · rfl
    · exact Declares.work cost ⟨rfl, vars, rfl⟩
  have hnames : workOfExprs (names.map fun name => Expr.ident name.span name.val) = 0 := by
    rw [workOfExprs_eq_sum, map_map]
    simp [Function.comp_def, Expr.work]
  have htuple : tupleWork .assign (names.map fun name => Expr.ident name.span name.val) ≤ 5 := by
    unfold tupleWork
    split <;> simp
  rw [hfront]
  simp only [Stmt.work, hnames, updateWork, AssignOp.combines?, workOfSpecs,
    workOfExprs_cons, workOfExprs_nil, Option.isSome_none, Bool.false_eq_true, if_false]
  omega

theorem work_of_partition {p stmts others} (h : stmts.partition p = ([x], others)) :
    workOfStmts stmts cost = x.work cost + workOfStmts others cost := by
  rw [workOfStmts_eq_sum, ← ((perm_of_partition h).map _).sum_nat, map_cons, sum_cons,
    workOfStmts_eq_sum]

/-- A condition stays one when it is entered. -/
theorem Walks.branchWork_eq {plan y} (h : Walks env (.stmt plan x y) s s') :
    branchWork y = branchWork x := by
  cases h with
  | plain _ hform => cases hform <;> rfl
  | _ => rfl

/-- Every run leaves at most the work it was given. -/
theorem Walks.lighter {task} (h : Walks env task s s') (henv : env.Positive)
    (hplan : ∀ p ∈ task.plan?, p.Ascending) : task.Lighter s s' := by
  induction h with
  | nil | eachNil | noHeader | noBranch | armsNil | bodiesNil => exact Nat.le_refl _
  | @hoist plan stmt _ _ _ _ s _ _ hform _ ih =>
    have hrun := ih hplan
    have hblock := withoutInit_work (returnCost plan s) s.nextId stmt.id stmt.span stmt.span hform
    exact Nat.le_trans hrun (Nat.add_le_add_right (Nat.le_of_succ_le hblock) _)
  | @post plan stmt rest _ init _ _ _ body _ _ _ _ _ _ hform _ hposts hparts _ _ ih ih' =>
    obtain ⟨id, span, form⟩ := stmt
    obtain rfl : form = _ := hform
    obtain ⟨stmts, place⟩ := body
    have hanti := returnCost_anti plan hposts.grows.2
    have hpost := ih hplan
    have hrun := ih' hplan
    have hinit := workOfHeader_mono hanti init
    have hstmts := workOfStmts_mono hanti stmts
    have hrest := workOfStmts_mono hanti rest
    simp only [Task.Lighter, workOfStmts_cons, workOfStmts_nil, workOfStmts_append,
      work_of_partition _ hparts, Stmt.work, workOfHeader] at hpost hrun ⊢
    omega
  | @split plan _ _ _ _ _ _ _ _ s _ _ hform hnew _ ih =>
    have hrun := ih hplan
    have hsplit := split_work (returnCost plan s) s.nextId hform hnew
    simp only [Task.Lighter, workOfStmts_cons] at hrun ⊢
    have hcost : returnCost plan { s with nextId := s.nextId + 1 } = returnCost plan s := rfl
    rw [hcost] at hrun
    omega
  | @replace plan _ _ _ _ s s1 _ _ hrewrites hissues _ ih =>
    have hrun := ih hplan
    have hcost : returnCost plan s1 = returnCost plan s := by
      funext id
      simp only [returnCost, hissues.settled]
    have hwork := hrewrites.work (returnCost plan s) henv
    simp only [Task.Lighter, workOfStmts_append, workOfStmts_cons, hcost] at hrun ⊢
    omega
  | @settle plan stmt rest _ new' _ s s1 _ _ _ _ hfresh hsettles hnew hout ih ih' =>
    have hpaid : returnCost (some plan) s1 stmt.id = 0 := by
      simp [returnCost, hsettles.grows.2]
    have hwork := hsettles.work (returnCost (some plan) s) (hplan plan rfl) hpaid
      (by simp [returnCost, hfresh])
    have hrun := ih hplan
    have hrun' := ih' hplan
    have hmono := workOfStmts_mono (returnCost_anti (some plan) hout.grows.2) new'
    have hmono' := workOfStmts_mono (returnCost_anti (some plan)
      (Subset.trans (hsettles.grows.2 ▸ subset_cons_self _ _) hnew.grows.2)) rest
    simp only [Task.Lighter, workOfStmts_append, workOfStmts_cons] at hrun hrun' ⊢
    omega
  | @enter plan _ stmt' rest _ _ _ _ _ _ _ hstmt hrest ih ih'
  | @eachCons plan _ stmt' rest _ _ _ _ _ hstmt hrest ih ih' =>
    have hrun := ih hplan
    have hrun' := ih' hplan
    have hmono := stmt'.work_mono (returnCost_anti plan hrest.grows.2)
    have hmono' := workOfStmts_mono (returnCost_anti plan hstmt.grows.2) rest
    simp only [Task.Lighter, workOfStmts_cons] at hrun hrun' ⊢
    omega
  | @plain plan id span _ _ _ _ _ hform hbodies ih =>
    exact hform.work (ih Task.unplanned) id (returnCost_anti plan hbodies.grows.2 id) span
  | block _ ih => exact Nat.add_le_add_left (ih hplan) 4
  | @cond plan _ _ _ init' _ _ stmts out _ otherwise _ _ s s1 s2 s3 s' hinit htest hbodies hout
      hbranch ih1 ih2 ih3 ih4 =>
    have hrun1 := ih1 hplan
    have hrun2 := lowerExpr_work htest (ih2 Task.unplanned)
    have hrun3 := ih3 hplan
    have hrun4 := ih4 hplan
    have hgrows3 : s.settled ⊆ s2.settled := Subset.trans hinit.grows.2 hbodies.grows.2
    have hgrows4 : s.settled ⊆ s3.settled := Subset.trans hgrows3 hout.grows.2
    have hgrows1 : s1.settled ⊆ s'.settled :=
      Subset.trans hbodies.grows.2 (Subset.trans hout.grows.2 hbranch.grows.2)
    have hmono1 := workOfHeader_mono (returnCost_anti plan hgrows1) init'
    have hmono3 := workOfStmts_mono (returnCost_anti plan hgrows3) stmts
    have hmono3' := workOfStmts_mono (returnCost_anti plan hbranch.grows.2) out
    have hmono4 := workOfBranch_mono (returnCost_anti plan hgrows4) otherwise
    simp only [Task.Lighter, Stmt.work] at hrun1 hrun3 hrun4 ⊢
    omega
  | @switch plan _ _ _ init' _ _ clauses _ _ s s1 s2 s' hinit htag hbodies hout ih1 ih2 ih3 =>
    have hrun1 := ih1 hplan
    have hrun2 := lowerExpr?_work htag (ih2 Task.unplanned)
    have hrun3 := ih3 hplan
    have hgrows3 : s.settled ⊆ s2.settled := Subset.trans hinit.grows.2 hbodies.grows.2
    have hgrows1 : s1.settled ⊆ s'.settled := Subset.trans hbodies.grows.2 hout.grows.2
    have hmono1 := workOfHeader_mono (returnCost_anti plan hgrows1) init'
    have hmono3 := workOfCases_mono (returnCost_anti plan hgrows3) clauses
    simp only [Task.Lighter, Stmt.work] at hrun1 hrun3 ⊢
    omega
  | @loop plan _ _ _ init' _ _ post post' stmts _ _ _ s s1 s2 s3 s' hinit htest hbodies hpost hout
      ih1 ih2 ih3 ih4 =>
    have hrun1 := ih1 hplan
    have hrun2 := lowerExpr?_work htest (ih2 Task.unplanned)
    have hrun3 := ih3 hplan
    have hrun4 := ih4 hplan
    have hgrows3 : s.settled ⊆ s2.settled := Subset.trans hinit.grows.2 hbodies.grows.2
    have hgrows4 : s.settled ⊆ s3.settled := Subset.trans hgrows3 hpost.grows.2
    have hgrows1 : s1.settled ⊆ s'.settled :=
      Subset.trans hbodies.grows.2 (Subset.trans hpost.grows.2 hout.grows.2)
    have hmono1 := workOfHeader_mono (returnCost_anti plan hgrows1) init'
    have hmono3 := workOfHeader_mono (returnCost_anti plan hgrows3) post
    have hmono3' := workOfHeader_mono (returnCost_anti plan hout.grows.2) post'
    have hmono4 := workOfStmts_mono (returnCost_anti plan hgrows4) stmts
    simp only [Task.Lighter, Stmt.work] at hrun1 hrun3 hrun4 ⊢
    omega
  | @range plan _ _ key _ value _ _ subject _ stmts _ _ _ s s1 s2 _ _ hkey hvalue hsubject hbodies _
      ih ih' =>
    have hrun := ih Task.unplanned
    have hrun' := ih' hplan
    have hsub1 := (lowerExpr?_subscripts key s).of_ok hkey
    have hsub2 := (lowerExpr?_subscripts value s1).of_ok hvalue
    have hsub3 := (lowerExpr_subscripts subject s2).of_ok hsubject
    have hmono := workOfStmts_mono (returnCost_anti plan hbodies.grows.2) stmts
    simp only [Task.Lighter, workOfBodies_append] at hrun hrun'
    simp only [Task.Lighter, Stmt.work, workOfExpr?_eq, Expr.work_eq]
    omega
  | header _ _ _ ih => exact Nat.add_le_add_left (ih hplan) 5
  | @inPlace plan _ _ _ s s1 _ _ hrewrites hissues _ ih =>
    have hrun := ih hplan
    have hwork := hrewrites.work (returnCost plan s) henv
    have hcost : returnCost plan s1 = returnCost plan s := by
      funext id
      simp only [returnCost, hissues.settled]
    simp only [Task.Lighter, workOfHeader, workOfStmts_nil, hcost] at hrun hwork ⊢
    omega
  | branch _ _ hstmt ih =>
    have hrun := ih hplan
    simp only [Task.Lighter, workOfBranch, hstmt.branchWork_eq] at hrun ⊢
    omega
  | @wrap _ stmt _ _ _ _ _ _ _ hform hstmt ih =>
    have hrun := ih hplan
    have hcond : branchWork stmt = 4 := by
      simp only [branchWork, hform]
    simp only [Task.Lighter, workOfBranch, hstmt.branchWork_eq, hcond] at hrun ⊢
    exact Nat.le_trans (Nat.le_of_eq (Nat.zero_add _)) hrun
  | @armsCons plan _ _ stmts out _ clauses _ _ s _ s2 _ hlabel hbodies hout hrest ih1 ih2 ih3 =>
    have hrun1 := lowerLabel_work hlabel (ih1 Task.unplanned)
    have hrun2 := ih2 hplan
    have hrun3 := ih3 hplan
    have hgrows3 : s.settled ⊆ s2.settled := Subset.trans hbodies.grows.2 hout.grows.2
    have hmono2 := workOfStmts_mono (returnCost_anti plan hbodies.grows.2) stmts
    have hmono2' := workOfStmts_mono (returnCost_anti plan hrest.grows.2) out
    have hmono3 := workOfCases_mono (returnCost_anti plan hgrows3) clauses
    simp only [Task.Lighter, workOfCases_cons] at hrun2 hrun3 ⊢
    omega
  | bodiesCons _ _ ih ih' =>
    have hrun := ih hplan
    have hrun' := ih' hplan
    simp only [Task.Lighter, workOfBodies_cons] at hrun' ⊢
    exact Nat.add_le_add (Nat.add_le_add_left hrun 1) hrun'

end Runs

/-! ## Post statements that never settle -/

end Lowering

/-- The expression is a call. -/
def Expr.isCall : Expr → Bool
  | .call .. => true
  | _ => false

/-- The form assigns one value to several targets, a blank one among them, and no rule completes
it: as a post statement it asks for declarations again and again. -/
def StmtForm.isStuck : StmtForm → Bool
  | .assign targets op [value] =>
    op != .define && 1 < targets.length && targets.any Expr.isBlank &&
      !(op == .assign && value.isCall)
  | _ => false

/-- The form is a loop whose post statement never settles. -/
def StmtForm.hasStuckPost : StmtForm → Bool
  | .loop _ _ (some post) _ => post.form.isStuck
  | _ => false

/-- No loop in the statement, in function literals or outside, has a post statement that never
settles. -/
def Stmt.Unstuck (stmt : Stmt) : Prop :=
  ∀ literal x, Inside literal stmt x → x.form.hasStuckPost = false

/-- The property holds of the forms of the statement and of all statements in it, in function
literals or outside. -/
def Stmt.Throughout (p : StmtForm → Prop) (stmt : Stmt) : Prop :=
  ∀ literal x, Inside literal stmt x → p x.form

theorem Stmt.throughout_iff {p} {stmt : Stmt} :
    stmt.Throughout p ↔ p stmt.form ∧ (∀ x ∈ stmt.form.inner, x.Throughout p) ∧
      ∀ body ∈ stmt.form.bodies, ∀ x ∈ body, x.Throughout p := by
  constructor
  · intro h
    refine ⟨h false stmt .self, ?_, ?_⟩
    · intro x hx literal y hy
      exact h literal y (.part hx hy)
    · intro body hbody x hx literal y hy
      exact h true y (.body hbody hx hy)
  · rintro ⟨hself, hinner, hbodies⟩ literal x hx
    cases hx with
    | self => exact hself
    | part hy hx => exact hinner _ hy _ x hx
    | body hbody hy hx => exact hbodies _ hbody _ hy _ x hx

theorem Stmt.unstuck_iff {stmt : Stmt} :
    stmt.Unstuck ↔ stmt.form.hasStuckPost = false ∧ (∀ x ∈ stmt.form.inner, x.Unstuck) ∧
      ∀ body ∈ stmt.form.bodies, ∀ x ∈ body, x.Unstuck :=
  Stmt.throughout_iff (p := fun form => form.hasStuckPost = false)

namespace Lowering

/-- The statement holds no statements, and the rules leave only such statements of it. -/
def isLoose (form : StmtForm) : Bool :=
  match form with
  | .expr _ => true
  | .decl decl => decl.specs.all fun spec => spec.values.isEmpty
  | .assign .. => !form.isStuck
  | _ => false

section Stuck

variable {env : Env} {stmt : Stmt} {s s' : State}

theorem isStuck_iff :
    (StmtForm.assign targets op values).isStuck = true ↔ ∃ value, values = [value] ∧
      op ≠ .define ∧ 1 < targets.length ∧ targets.any Expr.isBlank = true ∧
      (op = .assign → value.isCall = false) := by
  unfold StmtForm.isStuck
  split
  · rename_i targets' op' value hform
    obtain ⟨rfl, rfl, rfl⟩ := StmtForm.assign.inj hform
    simp [and_assoc, imp_iff_not_or]
  · rename_i hform
    refine iff_of_false Bool.false_ne_true ?_
    rintro ⟨value, rfl, -⟩
    exact hform targets op value rfl

theorem isLoose_assign :
    isLoose (.assign targets op values) = true ↔
      ¬ (StmtForm.assign targets op values).isStuck = true := by
  simp [isLoose]

theorem isLoose_readForm (base key target : Expr) (flag? : Option Expr) (span : Span) :
    isLoose (env.readForm base key target flag? span) = true := by
  cases flag? with
  | none => rfl
  | some flag =>
    refine isLoose_assign.2 ?_
    rw [isStuck_iff]
    simp

theorem isLoose_completedForm (shape : List Nat) (targets : List Expr) (span : Span) (callee : Expr)
    (args : List Expr) (spread : Bool) :
    isLoose (completedForm shape targets span callee args spread) = true := by
  unfold completedForm
  split
  · rw [isLoose_assign, isStuck_iff]
    simp
  · rfl

theorem isLoose_of_declares (h : Declares place stmt) : isLoose stmt.form = true := by
  obtain ⟨-, vars, hform⟩ := h
  simp [hform, isLoose, varDecl, Spec.values]

theorem Swaps.isBlank (h : Swaps read temp e e')
    (htemp : ∀ span, (Expr.ident span temp).isBlank = false) : e'.isBlank = false := by
  cases h with
  | here => exact htemp _
  | _ => rfl

/-- Taking a read out makes no target blank. -/
theorem SwapsIn.any_isBlank
    (h : SwapsIn read temp es es') (htemp : ∀ span, (Expr.ident span temp).isBlank = false)
    (hblank : es'.any Expr.isBlank = true) : es.any Expr.isBlank = true := by
  obtain ⟨l, e, e', r, rfl, rfl, h⟩ := h
  simp only [any_append, any_cons, h.isBlank htemp, Bool.false_or] at hblank
  simp only [any_append, any_cons, Bool.or_left_comm _ e.isBlank, hblank, Bool.or_true]

/-- Taking a read out of a call leaves a call. -/
theorem Swaps.isCall (h : Swaps read temp e e')
    (hread : read.isCall = false) (hcall : e.isCall = true) : e'.isCall = true := by
  cases h with
  | here => simp [hread] at hcall
  | callee | arg => rfl
  | _ => simp [Expr.isCall] at hcall

theorem Extracts.loose {x} (h : Extracts (env.isElement place) temp form x)
    (htemp : ∀ span, (Expr.ident span temp).isBlank = false) (hform : isLoose form = true) :
    isLoose x.rest = true := by
  cases h with
  | expr => rfl
  | targets hy =>
    refine isLoose_assign.2 fun hstuck => isLoose_assign.1 hform ?_
    obtain ⟨value, hvalue, hop, hcount, hblank, hcall⟩ := isStuck_iff.1 hstuck
    have hswaps := extractTargets_swapsIn hy
    exact isStuck_iff.2 ⟨value, hvalue, hop, hswaps.length_eq ▸ hcount,
      hswaps.any_isBlank htemp hblank, hcall⟩
  | values hy =>
    refine isLoose_assign.2 fun hstuck => isLoose_assign.1 hform ?_
    obtain ⟨value', hvalue', hop, hcount, hblank, hcall⟩ := isStuck_iff.1 hstuck
    obtain ⟨hread, hswaps⟩ := extractList_swaps false _ hy
    obtain ⟨value, rfl, hswap⟩ := SwapsIn.of_singleton (hvalue' ▸ hswaps)
    refine isStuck_iff.2 ⟨value, rfl, hop, hcount, hblank, ?_⟩
    intro hassign
    by_contra hvalue
    obtain ⟨_, _, _, hindex⟩ := index_of_isElement hread
    have hcall' := hswap.isCall (by rw [hindex]; rfl) (by simpa using hvalue)
    exact absurd (hcall hassign) (by simp [hcall'])
  | @decl _ specs _ _ hy =>
    have hnone : specs.flatMap Spec.values = [] := by
      simpa [isLoose] using hform
    have hspecs : extractSpecs (env.isElement place) temp specs = none :=
      extractSpecs_eq_none.2 (by simp [hnone])
    rw [hspecs] at hy
    contradiction
  | incDec | ret | cond | switch | range => simp [isLoose] at hform

/-- What a rule leaves of a loose statement is loose, and so is what it puts in front. -/
theorem Rewrites.loose {r} (h : Rewrites env stmt r) (hstmt : isLoose stmt.form = true) :
    (∀ x ∈ r.before, isLoose x.form = true) ∧ isLoose r.form = true := by
  refine ⟨?_, ?_⟩
  · intro x hx
    rcases (h.before_form hx).2 with hdeclares | ⟨e, hform⟩
    · exact isLoose_of_declares hdeclares
    · rw [hform]
      rfl
  · cases h with
    | write | update => rfl
    | read => exact isLoose_readForm _ _ _ _ _
    | define _ _ _ _ _ hnamed =>
      refine isLoose_assign.2 fun hstuck => ?_
      obtain ⟨-, -, -, -, hblank, -⟩ := isStuck_iff.1 hstuck
      obtain ⟨target, htarget, hblank⟩ := any_eq_true.1 hblank
      simp [hnamed target htarget] at hblank
    | complete => exact isLoose_completedForm _ _ _ _ _ _
    | hoist hextracts => exact hextracts.loose (isBlank_discardName _ · _) hstmt

theorem isStuck_of_isLoose (h : isLoose form = true) : form.isStuck = false := by
  cases form with
  | assign => simpa [isLoose] using h
  | _ => rfl

theorem Rewrites.not_stuck_inPlace (h : Rewrites env stmt ⟨[], form⟩) : form.isStuck = false := by
  cases h with
  | write => rfl
  | read => exact isStuck_of_isLoose (isLoose_readForm _ _ _ _ _)
  | define _ _ _ _ _ hnamed =>
    by_contra hstuck
    obtain ⟨-, -, -, -, hblank, -⟩ := isStuck_iff.1 (by simpa using hstuck)
    obtain ⟨target, htarget, hblank⟩ := any_eq_true.1 hblank
    simp [hnamed target htarget] at hblank
  | complete => exact isStuck_of_isLoose (isLoose_completedForm _ _ _ _ _ _)
  | update _ _ hreads | hoist _ _ hreads =>
    obtain ⟨_, _, hbefore, -⟩ := hreads
    simp at hbefore

/-- Entering an expression keeps what stands outermost. -/
theorem lowerExpr_head {lowerBody} (e : Expr) (s : State) : Ensures (lowerExpr env lowerBody e)
      (fun e' _ => e'.name? = e.name? ∧ e'.isCall = e.isCall) (fun _ => True) s := by
  let R (e e' : Expr) (_ _ : State) := e'.name? = e.name? ∧ e'.isCall = e.isCall
  have enters : Enters env lowerBody (fun _ => True) (fun _ => True) R (fun _ => True) := {
    parts _ _ _ := trivial
    keeps _ _ := trivial
    body _ _ := .intro (fun _ _ _ => ⟨rfl, rfl⟩) fun _ _ => trivial
    node _ _ _ _ hfill := by
      cases hfill with
      | binary =>
        unfold lowerBinary
        split <;> exact ⟨rfl, rfl⟩
      | _ => exact ⟨rfl, rfl⟩
    stop _ _ := trivial }
  exact enters.expr e trivial trivial

theorem lowerExprs_head {lowerBody} (h : lowerExprs env lowerBody es s = .ok (es', s')) :
    Forall₂ (fun e e' => e'.isBlank = e.isBlank ∧ e'.isCall = e.isCall) es es' := by
  refine (lowerExprs_forall₂ h).imp ?_
  rintro e e' ⟨t, t', he⟩
  obtain ⟨hname, hcall⟩ := (lowerExpr_head e t).of_ok he
  exact ⟨by rw [Expr.isBlank, hname, Expr.isBlank], hcall⟩

theorem isStuck_of_forall₂ {values'}
    (htargets : Forall₂ (fun e e' => e'.isBlank = e.isBlank ∧ e'.isCall = e.isCall) targets
      targets')
    (hvalues : Forall₂ (fun e e' => op = .assign → e'.isCall = e.isCall) values values')
    (h : (StmtForm.assign targets' op values').isStuck = true) :
    (StmtForm.assign targets op values).isStuck = true := by
  obtain ⟨value', rfl, hop, hcount, hblank, hcall⟩ := isStuck_iff.1 h
  obtain ⟨value, rest, hvalue, hrest, rfl⟩ := forall₂_cons_right_iff.1 hvalues
  obtain rfl := forall₂_nil_right_iff.1 hrest
  obtain ⟨target', htarget', hblank⟩ := any_eq_true.1 hblank
  obtain ⟨target, htarget, hsame⟩ := forall₂_exists_right htargets htarget'
  refine isStuck_iff.2 ⟨value, rfl, hop, htargets.length_eq ▸ hcount, ?_, ?_⟩
  · exact any_eq_true.2 ⟨target, htarget, hsame.1 ▸ hblank⟩
  · intro hassign
    exact hvalue hassign ▸ hcall hassign

theorem LowersPlain.isStuck {lowerBody} (h : LowersPlain env lowerBody form form' s s')
    (hstuck : form'.isStuck = true) : form.isStuck = true := by
  cases h with
  | assign _ htargets hvalues =>
    exact isStuck_of_forall₂ (lowerExprs_head htargets)
      ((lowerExprs_head hvalues).imp fun _ _ h _ => h.2) hstuck
  | @andNot _ targets' values _ _ s1 _ htargets hvalues =>
    have hlength := (lowerExprs_length values s1).of_ok hvalues
    obtain ⟨value', hvalue', -, hcount, hblank, -⟩ := isStuck_iff.1 hstuck
    have hone := congrArg length hvalue'
    rw [length_map, hlength, length_singleton] at hone
    obtain ⟨value, rfl⟩ := length_eq_one_iff.1 hone
    have hstuck' : (StmtForm.assign targets' .andNot [value]).isStuck = true :=
      isStuck_iff.2 ⟨value, rfl, by simp, hcount, hblank, by simp⟩
    exact isStuck_of_forall₂ (lowerExprs_head htargets) (.cons (by simp) .nil) hstuck'
  | _ => simp [StmtForm.isStuck] at hstuck

theorem valued_eq_zero {specs} :
    valued specs = 0 ↔ (specs.all fun spec => spec.values.isEmpty) = true := by
  simp [valued, countP_eq_zero]

theorem LowersPlain.loose {lowerBody} (h : LowersPlain env lowerBody form form' s s')
    (hloose : isLoose form = true) : isLoose form' = true := by
  have hstuck : ¬ form'.isStuck = true := by
    intro hstuck
    exact absurd (h.isStuck hstuck) (by simp [isStuck_of_isLoose hloose])
  cases h with
  | expr => rfl
  | decl h =>
    have hvalued := ((lowerSpecs_subscripts _ s).of_ok h).1
    refine valued_eq_zero.1 (hvalued.trans ?_)
    exact valued_eq_zero.2 hloose
  | assign | andNot => exact isLoose_assign.2 hstuck
  | _ => simp [isLoose] at hloose

/-- What is loose stays loose, and what is not stuck stays so. -/
def Task.KeepsLoose : Task → Prop
  | .seq _ xs ys =>
    (∀ x ∈ xs, isLoose x.form = true) → ∀ y ∈ ys, isLoose y.form = true
  | .stmt _ x y =>
    (isLoose x.form = true → isLoose y.form = true) ∧
      (y.form.isStuck = true → x.form.isStuck = true)
  | .header _ x y => ∀ y' ∈ y, y'.form.isStuck = true → ∃ x' ∈ x, x'.form.isStuck = true
  | _ => True

theorem not_isLoose_of_withoutInit
    (h : form.withoutInit = some (init, inner)) : isLoose form = false := by
  cases StmtForm.opens h <;> rfl

theorem Walks.keepsLoose {task} (h : Walks env task s s') : task.KeepsLoose := by
  induction h with
  | nil => exact fun h => h
  | hoist _ hform =>
    intro hloose
    simp [not_isLoose_of_withoutInit hform] at hloose
  | post _ hform =>
    intro hloose
    simp [hform, isLoose] at hloose
  | split _ hform =>
    intro hloose
    simp [hform, isLoose, Spec.values] at hloose
  | replace _ hrewrites _ _ ih =>
    intro hloose
    obtain ⟨hstmt, hrest⟩ := forall_mem_cons.1 hloose
    obtain ⟨hbefore, hform⟩ := hrewrites.loose hstmt
    refine ih ?_
    intro x hx
    rcases mem_append.1 hx with hx | hx
    · exact hbefore x hx
    · rcases mem_cons.1 hx with rfl | hx
      · exact hform
      · exact hrest x hx
  | settle _ _ _ hsettles _ _ _ ih' =>
    intro hloose
    cases hsettles <;> simp_all [isLoose]
  | enter _ _ _ _ _ ih ih' =>
    intro hloose
    obtain ⟨hstmt, hrest⟩ := forall_mem_cons.1 hloose
    exact forall_mem_cons.2 ⟨ih.1 hstmt, ih' hrest⟩
  | plain _ hform => exact ⟨hform.loose, hform.isStuck⟩
  | block | cond | switch | loop | range =>
    exact ⟨fun h => absurd h (by simp [isLoose]), fun h => absurd h (by simp [StmtForm.isStuck])⟩
  | noHeader => simp [Task.KeepsLoose]
  | header _ _ _ ih =>
    rintro _ ⟨⟩ hstuck
    exact ⟨_, rfl, ih.2 hstuck⟩
  | inPlace _ hrewrites _ _ ih =>
    rintro _ ⟨⟩ hstuck
    have hform := ih.2 hstuck
    simp [hrewrites.not_stuck_inPlace] at hform
  | eachNil | eachCons | noBranch | branch | wrap | armsNil | armsCons | bodiesNil | bodiesCons =>
    trivial

theorem hasStuckPost_of_isPlain (h : isPlain form = true) : form.hasStuckPost = false := by
  cases form with
  | loop => simp [isPlain] at h
  | _ => rfl

theorem Rewrites.hasStuckPost {r} (h : Rewrites env stmt r) : r.form.hasStuckPost = false := by
  obtain ⟨id, span, form⟩ := stmt
  obtain ⟨before, form'⟩ := r
  cases h.reforms with
  | action _ ha | without _ ha => cases ha <;> rfl

theorem bodies_forwarded (span place : Span) (callee : Expr) (args : List Expr) (spread : Bool)
    (outs : List String) :
    (Expr.call span callee (args ++ outs.map (.ident place)) spread).bodies =
      (Expr.call span callee args spread).bodies := by
  have houts : bodiesOfExprs (outs.map (Expr.ident place)) = [] := by
    induction outs with
    | nil => rfl
    | cons out outs ih => simpa [bodiesOfExprs, Expr.bodies] using ih
  simp [Expr.bodies, bodiesOfExprs_append, houts]

theorem bodies_of_stores {moved stores} (h : Forall₂ (Stores span) moved stores) :
    bodiesOfStmts stores = bodiesOfExprs (moved.map Prod.snd) := by
  induction h with
  | nil => rfl
  | cons hstore _ ih =>
    rw [bodiesOfStmts, flatMap_cons, ← bodiesOfStmts, ih, hstore.2]
    simp [bodiesOfExprs, Expr.bodies]

/-- What a return becomes has the function literals of the return, each once. -/
theorem Settles.bodies_perm {plan} (h : Settles env plan stmt s new s') (hplan : plan.Ascending) :
    (bodiesOfStmts new).Perm stmt.form.bodies := by
  cases h with
  | @values values _ _ hform hlen hstores =>
    have hall := bodiesOfExprs_append (values.take (if plan.keepsFirst then 1 else 0))
      (values.drop (if plan.keepsFirst then 1 else 0))
    rw [take_append_drop] at hall
    rw [hform, bodies_ret, hall, bodiesOfStmts, flatMap_append, ← bodiesOfStmts,
      bodies_of_stores hstores, hplan.moved_values hlen]
    refine perm_append_comm.trans (Perm.of_eq ?_)
    simp
  | names hform _ _ hstores =>
    have hnone (names : List (String × String)) : bodiesOfExprs
        ((names.map fun named => (named.1, Expr.ident stmt.span named.2)).map Prod.snd) = [] := by
      induction names with
      | nil => rfl
      | cons named names ih => simpa [bodiesOfExprs, Expr.bodies] using ih
    rw [hform, bodiesOfStmts, flatMap_append, ← bodiesOfStmts, bodies_of_stores hstores,
      ReturnPlan.movedNames, hnone]
    simp [bodiesOfExprs]
  | call hform => simp [hform, bodiesOfStmts, bodiesOfExprs, bodies_forwarded]
  | callOnly hform => simp [hform, bodiesOfStmts, bodiesOfExprs, bodies_forwarded]

theorem withoutInit_bodies
    (h : form.withoutInit = some (init, inner)) : inner.bodies = form.bodies := by
  cases StmtForm.opens h <;> rfl

theorem withoutInit_hasStuckPost
    (h : form.withoutInit = some (init, inner)) : inner.hasStuckPost = form.hasStuckPost := by
  cases StmtForm.opens h with
  | @loop _ _ post => cases post <;> rfl
  | _ => rfl

/-- A property of forms that every rule leaves to what it makes of a statement. -/
structure Lasting (env : Env) (p : StmtForm → Prop) : Prop where
  plain : ∀ {form}, isPlain form = true → p form
  block : ∀ {block}, p (.block block)
  withoutInit : ∀ {form inner init}, form.withoutInit = some (init, inner) → p form → p inner
  rewrites : ∀ {stmt r}, Rewrites env stmt r → p stmt.form → p r.form

namespace Lasting

variable {p : StmtForm → Prop}

theorem of_isPlain (hp : Lasting env p) (h : isPlain stmt.form = true)
    (hbodies : ∀ body ∈ stmt.form.bodies, ∀ x ∈ body, x.Throughout p) : stmt.Throughout p := by
  refine Stmt.throughout_iff.2 ⟨hp.plain h, ?_, hbodies⟩
  simp [inner_of_isPlain h]

theorem throughout_block (hp : Lasting env p) {id} {stmts : List Stmt} :
    Stmt.Throughout p ⟨id, span, .block ⟨stmts, place⟩⟩ ↔ ∀ x ∈ stmts, x.Throughout p := by
  rw [Stmt.throughout_iff, and_iff_right hp.block]
  simp [StmtForm.inner, StmtForm.bodies, StmtForm.exprs, bodiesOfExprs]

theorem of_rewrites (hp : Lasting env p) {r : Replacement} (h : Rewrites env stmt r)
    (henv : env.Positive) (hstmt : stmt.Throughout p) :
    ∀ x ∈ r.before ++ [⟨stmt.id, stmt.span, r.form⟩], x.Throughout p := by
  obtain ⟨hform, hinner, hbodies⟩ := Stmt.throughout_iff.1 hstmt
  intro x hx
  rcases mem_append.1 hx with hx | hx
  · refine hp.of_isPlain (h.before_isPlain hx) ?_
    intro body hbody
    exact hbodies body ((h.bodies henv).2 (.inl ⟨x, hx, hbody⟩))
  · obtain rfl := mem_singleton.1 hx
    refine Stmt.throughout_iff.2 ⟨hp.rewrites h hform, ?_, ?_⟩
    · rw [h.inner]
      exact hinner
    · intro body hbody
      exact hbodies body ((h.bodies henv).2 (.inr hbody))

theorem of_settles (hp : Lasting env p) {plan : ReturnPlan} (h : Settles env plan stmt s new s')
    (hplan : plan.Ascending) (hstmt : stmt.Throughout p) : ∀ x ∈ new, x.Throughout p := by
  obtain ⟨-, -, hbodies⟩ := Stmt.throughout_iff.1 hstmt
  intro x hx
  refine hp.of_isPlain (h.plain x hx) ?_
  intro body hbody
  exact hbodies body ((h.bodies_perm hplan).mem_iff.1 (mem_bodiesOfStmts.2 ⟨x, hx, hbody⟩))

theorem of_withoutInit (hp : Lasting env p) (id id' : NodeId) (span place : Span)
    (h : stmt.form.withoutInit = some (init, inner)) (hstmt : stmt.Throughout p) :
    Stmt.Throughout p ⟨id, span, .block ⟨[init, ⟨id', span, inner⟩], place⟩⟩ := by
  obtain ⟨hform, hinner, hbodies⟩ := Stmt.throughout_iff.1 hstmt
  rw [withoutInit_inner h, forall_mem_cons] at hinner
  have hrest : Stmt.Throughout p ⟨id', span, inner⟩ :=
    Stmt.throughout_iff.2 ⟨hp.withoutInit h hform, hinner.2, (withoutInit_bodies h) ▸ hbodies⟩
  rw [hp.throughout_block]
  simpa using ⟨hinner.1, hrest⟩

theorem of_split (hp : Lasting env p) {names} {type : Option (Located TypeExpr)} {value}
    (id : NodeId) (hform : stmt.form = .decl ⟨.var, [.value names type [value]], span⟩)
    (hnew : Divided names stmt.span form) (hstmt : stmt.Throughout p) :
    Stmt.Throughout p ⟨stmt.id, stmt.span, form⟩ ∧ Stmt.Throughout p ⟨id, stmt.span,
      .assign (names.map fun name => .ident name.span name.val) .assign [value]⟩ := by
  obtain ⟨-, -, hbodies⟩ := Stmt.throughout_iff.1 hstmt
  refine ⟨?_, hp.of_isPlain rfl ?_⟩
  · rcases hnew with rfl | ⟨vars, -, rfl⟩
    · exact hp.of_isPlain rfl (by simp [StmtForm.bodies, StmtForm.exprs, bodiesOfExprs])
    · exact hp.of_isPlain rfl (by simp)
  · intro body hbody
    refine hbodies body ?_
    rw [hform]
    simpa [bodiesOfExprs, StmtForm.bodies, StmtForm.exprs, Spec.values, Expr.bodies] using hbody

end Lasting

/-- No rule leaves a loop with a post statement that never settles. -/
theorem unstuck_lasts (env : Env) : Lasting env fun form => form.hasStuckPost = false where
  plain := hasStuckPost_of_isPlain
  block := rfl
  withoutInit h hform := (withoutInit_hasStuckPost h).trans hform
  rewrites h _ := h.hasStuckPost

/-- A post statement that asks for declarations and is not stuck is loose. -/
theorem isLoose_of_needsDeclarations {post} (h : env.needsDeclarations post = true)
    (hstuck : post.form.isStuck = false) : isLoose post.form = true := by
  unfold Env.needsDeclarations at h
  split at h
  · rename_i targets op value hform
    rw [hform] at hstuck ⊢
    simp [isLoose, hstuck]
  · contradiction

/-- A post statement that was lowered for itself is stuck only if it was before. -/
theorem Walks.isStuck_post {plan : Option ReturnPlan} {post post' posts decls}
    (hposts : Walks env (.seq plan [post] posts) s s') (hneeds : env.needsDeclarations post = true)
    (hparts : posts.partition (fun x => x.id == post.id) = ([post'], decls))
    (hstuck : post'.form.isStuck = true) : post.form.isStuck = true := by
  by_contra hpost
  have hloose := isLoose_of_needsDeclarations hneeds (Bool.not_eq_true _ ▸ hpost)
  have hloose' := hposts.keepsLoose (by simpa using hloose) post'
    ((perm_of_partition hparts).mem_iff.1 mem_cons_self)
  simp [isStuck_of_isLoose hloose'] at hstuck

/-- And so is one that was lowered in its loop. -/
theorem Walks.hasStuckPost {plan : Option ReturnPlan} {start start' test test' post post' body}
    {body' : Block} (h : Walks env (.header plan post post') s s')
    (hstuck : (StmtForm.loop start' test' post' body').hasStuckPost = true) :
    (StmtForm.loop start test post body).hasStuckPost = true := by
  cases post' with
  | none => contradiction
  | some y =>
    obtain ⟨x, rfl, hx⟩ := h.keepsLoose y rfl hstuck
    exact hx

end Stuck

end Lowering

end ScriptLowering
