import ScriptLowering.Proofs.Nesting

/-!
# Lowering within a norm

A rule makes new nodes of the nodes it is given, at their places, and none of the forbidden ones.
So a tree within a norm is lowered to one within it, and the lowering warns and stops within the
norm on the way (`Points`).
-/

namespace ScriptLowering.Lowering

open List

variable {place span : Span} {base e key target : Expr} {targets : List Expr} {r : Replacement}
  {s s' : State} {stmt : Stmt} {env : Env}

variable {norm : Norm}

/-! ## What a step leaves -/

section Steps

variable {env : Env} {stmt : Stmt}

theorem Declares.fits {x} (h : Declares place x) (hplace : norm.span place) : x.Fits norm := by
  obtain ⟨hspan, vars, hform⟩ := h
  rw [Stmt.fits_iff, hspan, hform]
  refine ⟨hplace, hplace, ?_⟩
  clear hform
  induction vars with
  | nil => trivial
  | cons var vars ih => exact ⟨⟨by simpa using hplace, trivial⟩, ih⟩

theorem address_fits (h : e.Fits norm) : e.address.Fits norm :=
  ⟨h.span, by rintro ⟨⟩, h⟩

theorem readCall_fits (hspan : norm.span span) (hbase : base.Fits norm) (hkey : key.Fits norm)
    (htarget : target.Fits norm) : (env.readCall base key target span).Fits norm :=
  ⟨hspan, hspan, hbase, hkey, address_fits htarget, trivial⟩

theorem writeCall_fits {value} (hspan : norm.span span) (hbase : base.Fits norm)
    (hkey : key.Fits norm) (hvalue : value.Fits norm) :
    (env.writeCall base key value span).Fits norm :=
  ⟨hspan, hspan, hbase, hkey, hvalue, trivial⟩

theorem Env.ReadsFirst.fits {callSpan temp stmts}
    (h : env.ReadsFirst place span callSpan base key temp stmts) (hplace : norm.span place)
    (hspan : norm.span span) (hcall : norm.span callSpan) (hbase : base.Fits norm)
    (hkey : key.Fits norm) : ∀ x ∈ stmts, x.Fits norm := by
  obtain ⟨declaration, ⟨id, place, form⟩, rfl, hdeclares, rfl, rfl⟩ := h
  refine forall_mem_cons.2 ⟨hdeclares.fits hplace, forall_mem_singleton.2 ?_⟩
  exact ⟨hplace, readCall_fits hcall hbase hkey hspan⟩

theorem Named.fits {target'} (h : Named target target') (ht : target.Fits norm) :
    target'.Fits norm := by
  rcases h with rfl | ⟨-, name, rfl⟩
  · exact ht
  · exact ht.span

theorem named_fits {targets'} (h : Forall₂ Named targets targets')
    (ht : ∀ t ∈ targets, t.Fits norm) : ∀ t ∈ targets', t.Fits norm := by
  induction h with
  | nil => simp
  | cons h _ ih =>
    obtain ⟨htarget, htargets⟩ := forall_mem_cons.1 ht
    exact forall_mem_cons.2 ⟨h.fits htarget, ih htargets⟩

theorem readForm_fits {flag?} (hspan : norm.span span) (hbase : base.Fits norm)
    (hkey : key.Fits norm) (htarget : target.Fits norm) (hflag : ∀ flag ∈ flag?, flag.Fits norm) :
    (env.readForm base key target flag? span).Fits norm span := by
  have hcall : (env.readCall base key target span).Fits norm :=
    readCall_fits hspan hbase hkey htarget
  cases flag? with
  | none => exact hcall
  | some flag => exact ⟨⟨hflag flag rfl, trivial⟩, hcall, trivial⟩

/-- A call with more arguments. -/
theorem call_fits {callee args more spread} (h : (Expr.call span callee args spread).Fits norm)
    (hmore : ∀ e ∈ more, e.Fits norm) :
    (Expr.call span callee (args ++ more) spread).Fits norm := by
  obtain ⟨hspan, hcallee, hargs⟩ := h
  refine ⟨hspan, hcallee, (exprsFit_iff _).2 (forall_mem_append.2 ⟨?_, hmore⟩)⟩
  exact (exprsFit_iff _).1 hargs

theorem completedForm_fits {shape args callee spread} (ht : ∀ t ∈ targets, t.Fits norm)
    (hcall : (Expr.call span callee args spread).Fits norm) :
    (completedForm shape targets span callee args spread).Fits norm place := by
  have houts : ∀ e ∈ (outPositions shape).filterMap fun position =>
      targets[position]?.map Expr.address, e.Fits norm := by
    intro e he
    obtain ⟨position, -, hposition⟩ := mem_filterMap.1 he
    obtain ⟨t, hmem, rfl⟩ := Option.map_eq_some_iff.1 hposition
    exact address_fits (ht t (mem_of_getElem? hmem))
  have hcall' := call_fits hcall houts
  unfold completedForm
  split
  · rename_i first hfirst
    have hmem : first ∈ targets := by
      split at hfirst
      · exact mem_of_mem_head? (Option.mem_filter_iff.1 hfirst).1
      · cases hfirst
    exact ⟨⟨ht first hmem, trivial⟩, hcall', trivial⟩
  · exact hcall'

/-- What a rule leaves of a statement within the norm is within it. -/
theorem Rewrites.fits (h : Rewrites env stmt r) (hstmt : stmt.Fits norm) :
    (∀ x ∈ r.before, x.Fits norm) ∧ r.form.Fits norm stmt.span := by
  obtain ⟨hspan, hform⟩ := (Stmt.fits_iff stmt).1 hstmt
  cases h with
  | write hassign =>
    obtain ⟨htargets, hvalues⟩ := fits_assign hstmt hassign
    obtain ⟨-, hbase, hkey⟩ := forall_mem_singleton.1 htargets
    exact ⟨by simp, writeCall_fits hspan hbase hkey (forall_mem_singleton.1 hvalues)⟩
  | read hassign _ _ hnamed hbefore =>
    obtain ⟨htargets, hvalues⟩ := fits_assign hstmt hassign
    obtain ⟨hfirst, hsecond⟩ := forall_mem_cons.1 htargets
    obtain ⟨-, hbase, hkey⟩ := forall_mem_singleton.1 hvalues
    refine ⟨fun x hx => (hbefore x hx).fits hspan,
      readForm_fits hspan hbase hkey (hnamed.fits hfirst) fun flag hflag => ?_⟩
    exact hsecond flag (Option.mem_toList.2 (Option.mem_filter_iff.1 hflag).1)
  | define hassign _ hnamed hbefore =>
    obtain ⟨htargets, hvalues⟩ := fits_assign hstmt hassign
    refine ⟨fun x hx => (hbefore x hx).fits hspan, ?_⟩
    exact ⟨(exprsFit_iff _).2 (named_fits hnamed htargets), (exprsFit_iff _).2 hvalues⟩
  | complete hassign _ hnamed hbefore =>
    obtain ⟨htargets, hvalues⟩ := fits_assign hstmt hassign
    refine ⟨fun x hx => (hbefore x hx).fits hspan, ?_⟩
    exact completedForm_fits (named_fits hnamed htargets) (forall_mem_singleton.1 hvalues)
  | update hupdate _ hreads =>
    obtain ⟨⟨-, hbase, hkey⟩, hvalue⟩ := elementUpdate?_fits hstmt hupdate
    refine ⟨hreads.fits hspan hbase.span hspan hbase hkey, ?_⟩
    exact writeCall_fits hspan hbase hkey ⟨hspan, hbase.span, hvalue⟩
  | hoist hextracts hread hreads =>
    obtain ⟨hfits, hrest⟩ := hextracts.fits hform
    rw [hread] at hfits
    obtain ⟨hplace, hbase, hkey⟩ := hfits
    exact ⟨hreads.fits hspan hplace hplace hbase hkey, hrest⟩

/-- What a rule puts in front of a statement was foreseen. -/
theorem Rewrites.needsSplice (h : Rewrites env stmt r) (hbefore : r.before ≠ []) :
    env.needsSplice stmt = true := by
  rw [Env.needsSplice, Bool.or_eq_true]
  cases h with
  | write => exact absurd rfl hbefore
  | read hform helement _ _ _ _ _ hdeclares =>
    simp [Env.needsDeclarations, hform, helement, hdeclares hbefore]
  | define hform hcount => simp [Env.needsDeclarations, hform, hcount]
  | complete hform hcount _ _ _ hblank =>
    have hcall : ∀ span callee args spread,
        env.isElement stmt.span (.call span callee args spread) = false := fun _ _ _ _ => rfl
    simp [Env.needsDeclarations, hform, hcount, hcall, hblank hbefore]
  | update hupdate =>
    refine .inr ?_
    unfold elementUpdate? at hupdate
    split at hupdate
    · rename_i hform
      split at hupdate
      · rename_i helement
        simp [Env.hasContainerWork, hform, helement]
      · contradiction
    · rename_i hform
      obtain ⟨op, hop, hupdate⟩ := Option.bind_eq_some_iff.1 hupdate
      split at hupdate
      · rename_i helement
        simp [Env.hasContainerWork, hform, hop, helement]
      · contradiction
    · contradiction
  | hoist hextracts => exact .inr (by simp [Env.hasContainerWork, hextracts.isSome "_"])

/-- An initializer that was left in its header has nothing to put in front. -/
theorem needsSplice_of_hoists {init inner} (h : stmt.form.withoutInit = some (init, inner))
    (hhoists : env.hoists stmt = false) : env.needsSplice init = false := by
  unfold StmtForm.withoutInit at h
  unfold Env.hoists at hhoists
  split at h <;> simp_all

theorem hoists_of_isFlat (h : stmt.isFlat = true) : env.hoists stmt = false := by
  obtain ⟨id, span, form⟩ := stmt
  cases form with
  | cond | switch | loop => simp [Stmt.isFlat] at h
  | _ => rfl

theorem hoists_of_isPlain (h : isPlain stmt.form = true) : env.hoists stmt = false := by
  obtain ⟨id, span, form⟩ := stmt
  cases form with
  | cond | switch | loop => simp [isPlain] at h
  | _ => rfl

/-- What is left after an `else` keeps its initializer. -/
theorem hoists_of_isBranch (h : stmt.isBranch = true)
    (hneeds : ∀ init test body otherwise, stmt.form = .cond init test body otherwise →
      init.any env.needsSplice = false ∧ env.readsElement stmt.span test = false) :
    env.hoists stmt = false := by
  obtain ⟨id, span, form⟩ := stmt
  cases form with
  | cond init test body otherwise =>
    obtain ⟨hinit, htest⟩ := hneeds _ _ _ _ rfl
    cases init with
    | none => rfl
    | some init => simpa [Env.hoists, htest] using hinit
  | block => rfl
  | _ => simp [Stmt.isBranch] at h

/-- The initializer and the rest of its header. -/
theorem withoutInit_fits {init inner} (hstmt : stmt.Fits norm)
    (h : stmt.form.withoutInit = some (init, inner)) :
    init.Fits norm ∧ inner.Fits norm stmt.span := by
  obtain ⟨id, span, form⟩ := stmt
  obtain ⟨-, hform⟩ := hstmt
  cases StmtForm.opens h with
  | cond =>
    obtain ⟨hinit, htest, hbody, hotherwise, hheads⟩ := hform
    exact ⟨hinit, trivial, htest, hbody, hotherwise, hheads.rest⟩
  | switch =>
    obtain ⟨hinit, htag, hclauses, hheads⟩ := hform
    exact ⟨hinit, trivial, htag, hclauses, hheads.rest⟩
  | loop =>
    obtain ⟨hinit, htest, hpost, hbody, hheads⟩ := hform
    exact ⟨hinit, trivial, htest, hpost, hbody, hheads.rest⟩

theorem Stores.fits {store x} (h : Stores span store x) (hspan : norm.span span)
    (hvalue : store.2.Fits norm) : x.Fits norm := by
  obtain ⟨id, place, form⟩ := x
  obtain ⟨rfl, rfl⟩ := h
  exact ⟨hspan, ⟨⟨hvalue.span, by rintro ⟨⟩, hvalue.span⟩, trivial⟩, hvalue, trivial⟩

theorem stores_fit {moved stores} (h : Forall₂ (Stores span) moved stores)
    (hspan : norm.span span) (hmoved : ∀ store ∈ moved, store.2.Fits norm) :
    ∀ x ∈ stores, x.Fits norm := by
  induction h with
  | nil => simp
  | cons h _ ih =>
    obtain ⟨hstore, hrest⟩ := forall_mem_cons.1 hmoved
    exact forall_mem_cons.2 ⟨h.fits hspan hstore, ih hrest⟩

theorem Settles.fits {plan new} (h : Settles env plan stmt s new s') (hstmt : stmt.Fits norm) :
    ∀ x ∈ new, x.Fits norm := by
  obtain ⟨hspan, hform⟩ := (Stmt.fits_iff stmt).1 hstmt
  -- output parameters that are passed on stand at the place of the statement
  have houts (outs : List String) : ∀ e ∈ outs.map (Expr.ident stmt.span), e.Fits norm := by
    intro e he
    obtain ⟨out, -, rfl⟩ := mem_map.1 he
    exact hspan
  cases h with
  | values hret _ hstores =>
    rw [hret] at hform
    have hvalues := (exprsFit_iff _).1 hform
    refine forall_mem_append.2 ⟨stores_fit hstores hspan ?_, forall_mem_singleton.2 ?_⟩
    · intro store hstore
      obtain ⟨out, -, hout⟩ := mem_filterMap.1 hstore
      obtain ⟨value, hvalue, rfl⟩ := Option.map_eq_some_iff.1 hout
      exact hvalues value (mem_of_getElem? hvalue)
    · exact ⟨hspan, (exprsFit_iff _).2 fun v hv => hvalues v (mem_of_mem_take hv)⟩
  | names _ _ _ hstores =>
    refine forall_mem_append.2
      ⟨stores_fit hstores hspan ?_, forall_mem_singleton.2 ⟨hspan, trivial⟩⟩
    intro store hstore
    obtain ⟨named, -, rfl⟩ := mem_map.1 hstore
    exact hspan
  | call hret =>
    rw [hret] at hform
    exact forall_mem_singleton.2 ⟨hspan, call_fits hform.1 (houts _), trivial⟩
  | callOnly hret =>
    rw [hret] at hform
    exact forall_mem_cons.2 ⟨⟨hspan, call_fits hform.1 (houts _)⟩,
      forall_mem_singleton.2 ⟨hspan, trivial⟩⟩

end Steps

/-! ## Runs -/

/-- The warnings so far stand at places within the norm. -/
def State.WarnedAt (norm : Norm) (s : State) : Prop := ∀ d ∈ s.warnings, norm.span d.span

/-- The run was not stopped by a report outside the norm. -/
def Halt.At (norm : Norm) : Halt → Prop
  | fatal report => norm.report report
  | outOfFuel => True

theorem Halt.IsOf.at {r : Halt} (h : r.IsOf stmt) (hstmt : stmt.Fits norm) : r.At norm := by
  cases r with
  | fatal d => exact h norm hstmt
  | outOfFuel => trivial

/-- The run warns and stops within the norm, and its result has `out`. -/
def Points {α : Type} (norm : Norm) (m : LowerM α) (out : α → Prop) : Prop :=
  ∀ s, s.WarnedAt norm → Ensures m (fun a s' => s'.WarnedAt norm ∧ out a) (Halt.At norm) s

namespace Points

variable {α β : Type} {m : LowerM α} {out : α → Prop}

theorem pure {a} (h : out a) : Points norm (Pure.pure a) out := fun _ hs => ⟨hs, h⟩

theorem bind {f} {out' : β → Prop} (h : Points norm m out)
    (hf : ∀ a, out a → Points norm (f a) out') : Points norm (m >>= f) out' :=
  fun s hs => (h s hs).bind fun a s' ha => hf a ha.2 s' ha.1

theorem fail {report} (h : norm.report report) :
    Points norm (Lowering.fail report : LowerM α) out := fun _ _ => h

theorem outOfFuel : Points norm (throw .outOfFuel : LowerM α) out := fun _ _ => trivial

theorem requireLegal {reports} (h : norm.Admits reports) :
    Points norm (Lowering.requireLegal reports) fun _ => True := by
  cases reports with
  | nil => exact .pure trivial
  | cons report reports => exact fun _ _ => h report mem_cons_self

theorem mapM {f} {out : β → Prop} {l : List α} (h : ∀ a ∈ l, Points norm (f a) out) :
    Points norm (l.mapM f) fun bs => ∀ b ∈ bs, out b := by
  induction l with
  | nil => exact .pure (by simp)
  | cons a l ih =>
    rw [mapM_cons]
    refine (h a (by simp)).bind fun b hb => ?_
    refine (ih fun a ha => h a (by simp [ha])).bind fun bs hbs => .pure ?_
    simpa using ⟨hb, hbs⟩

end Points

theorem Effects.warnedAt (h : Effects env stmt r s s') (hstmt : stmt.Fits norm)
    (hs : s.WarnedAt norm) : s'.WarnedAt norm := by
  intro d hd
  rcases h.warnings norm hstmt d hd with hd | hd
  · exact hs d hd
  · exact hd

theorem Settles.warnings {plan new} (h : Settles env plan stmt s new s') :
    s'.warnings = s.warnings := by
  cases h <;> rfl

/-- What a rule that was tried leaves. -/
theorem replaceStmt_points (declared : List String) (h : stmt.Fits norm) :
    Points norm (replaceStmt env declared stmt)
      fun r => ∀ x ∈ r, Rewrites env stmt x ∧ x.form.Fits norm stmt.span := by
  intro s hs
  refine (replaceStmt_outcome declared s).mono ?_ fun r hr => hr.at h
  intro r s' hr
  cases r with
  | none => exact ⟨hr.1 ▸ hs, by simp⟩
  | some r =>
    refine ⟨hr.2.warnedAt h hs, ?_⟩
    rintro _ ⟨⟩
    exact ⟨hr.1, (hr.1.fits h).2⟩

theorem declareAny_points (vars : List Var) (h : norm.span span) :
    Points norm (declareAny vars span) fun stmts => ∀ x ∈ stmts, x.Fits norm := by
  intro s hs
  refine (ensures_declareAny vars span).imp ?_
  rintro _ _ ⟨rfl, rfl⟩
  exact ⟨hs, fun x hx => (declares_of_mem hx).fits h⟩

/-! ## Expressions -/

/-- A lowering of sequences points within the norm, as an expression uses it for the bodies of
function literals. -/
def SequenceLowering.Pointing (norm : Norm) (lowerSeq : SequenceLowering) : Prop :=
  ∀ names stmts, (∀ x ∈ stmts, x.Fits norm) →
    Points norm (lowerSeq names stmts) fun out => ∀ x ∈ out, x.Fits norm

section Expressions

variable {env : Env} {lowerSeq : SequenceLowering}

theorem complement_fits (h : e.Fits norm) : (complement e.span e).Fits norm :=
  ⟨h.span, h.span, by rintro ⟨⟩, h.span, h⟩

theorem lowerBinary_fits {op left right} (hspan : norm.span span) (hl : left.Fits norm)
    (hr : right.Fits norm) : (lowerBinary span op left right).Fits norm := by
  unfold lowerBinary
  split
  · exact ⟨hspan, hl, complement_fits hr⟩
  · exact ⟨hspan, hl, hr⟩

theorem fits_parts (h : e.Fits norm) : ∀ x ∈ e.parts, x.Fits norm := by
  cases e with
  | slice => simp_all [Expr.Fits, Expr.parts, or_imp]
  | _ => simp_all [Expr.Fits, Expr.parts]

theorem Refills.fits {e' es} (h : Refills e es e') (he : e.Fits norm)
    (hes : ∀ x ∈ es, x.Fits norm) : e'.Fits norm := by
  cases h with
  | binary => exact lowerBinary_fits he.1 (hes _ (by simp)) (hes _ (by simp))
  | _ => simp_all [Expr.Fits]

/-- How expressions within the norm are entered. -/
def PointsTo (norm : Norm) (_ e' : Expr) (s s' : State) : Prop :=
  e'.Fits norm ∧ (s.WarnedAt norm → s'.WarnedAt norm)

theorem pointsTo_chain {es es'} (h : Chain (PointsTo norm) es es' s s') :
    (∀ e ∈ es', e.Fits norm) ∧ (s.WarnedAt norm → s'.WarnedAt norm) := by
  induction h with
  | nil => exact ⟨nofun, id⟩
  | cons he _ ih => exact ⟨forall_mem_cons.2 ⟨he.1, ih.1⟩, ih.2 ∘ he.2⟩

variable (hseq : lowerSeq.Pointing norm)
include hseq

theorem enters_points : Enters env lowerSeq (Expr.Fits norm) (State.WarnedAt norm) (PointsTo norm)
    (Halt.At norm) where
  parts := fits_parts
  keeps h := h.2
  body h hs := by
    refine (hseq _ _ ((stmtsFit_iff _).1 h.2.2) _ hs).mono (fun out s' hout => ?_) fun _ => id
    exact ⟨⟨h.1, h.2.1, (stmtsFit_iff _).2 hout.2⟩, fun _ => hout.1⟩
  node he _ _ hes hfill := by
    obtain ⟨hfits, hwarned⟩ := pointsTo_chain hes
    exact ⟨hfill.fits he hfits, hwarned⟩
  stop he _ := norm.excused _ (.inr rfl) (unsupported_ne_unplacedPost _ _) he.span

theorem lowerExpr_points (e : Expr) (h : e.Fits norm) :
    Points norm (lowerExpr env lowerSeq e) fun r => r.Fits norm :=
  fun _ hs => ((enters_points hseq).expr e h hs).mono (fun _ _ h => ⟨h.2 hs, h.1⟩) fun _ => id

theorem lowerExprs_points (es : List Expr) (h : exprsFit norm es) :
    Points norm (lowerExprs env lowerSeq es) (exprsFit norm) := by
  intro _ hs
  refine ((enters_points hseq).exprs ((exprsFit_iff _).1 h) hs).mono (fun es' s' hes => ?_)
    fun _ => id
  exact ⟨(pointsTo_chain hes).2 hs, (exprsFit_iff _).2 (pointsTo_chain hes).1⟩

theorem lowerExpr?_points (e : Option Expr) (h : expr?Fits norm e) :
    Points norm (lowerExpr? env lowerSeq e) (expr?Fits norm) := by
  cases e with
  | none => exact .pure trivial
  | some e => exact (lowerExpr_points hseq e h).bind fun e' he => .pure he

theorem lowerLabel_points (exprs : Option (List Expr))
    (h : labelFits norm exprs) : Points norm (lowerLabel env lowerSeq exprs) (labelFits norm) := by
  cases exprs with
  | none => exact .pure trivial
  | some es => exact (lowerExprs_points hseq es h).bind fun es' hes => .pure hes

theorem lowerSpecs_points (specs : List Spec)
    (h : specsFit norm specs) : Points norm (lowerSpecs env lowerSeq specs) (specsFit norm) := by
  induction specs with
  | nil => exact .pure trivial
  | cons spec specs ih =>
    cases spec with
    | value names type values =>
      obtain ⟨⟨hnames, hvalues⟩, hspecs⟩ := h
      refine (lowerExprs_points hseq values hvalues).bind fun values' hv => ?_
      exact (ih hspecs).bind fun specs' hs => .pure ⟨⟨hnames, hv⟩, hs⟩
    | typeName name isAlias type => exact (ih h).bind fun specs' hs => .pure hs

theorem lowerGenDecl_points (decl : GenDecl) (h : specsFit norm decl.specs) :
    Points norm (lowerGenDecl env lowerSeq decl)
      fun r => r.span = decl.span ∧ specsFit norm r.specs :=
  (lowerSpecs_points hseq decl.specs h).bind fun _ hs => .pure ⟨rfl, hs⟩

theorem lowerAssign_points (op : AssignOp)
    {values : List Expr} (ht : exprsFit norm targets) (hv : exprsFit norm values) :
    Points norm (lowerAssign env lowerSeq targets op values) fun form =>
      form.Fits norm span ∧ ∃ targets op values, form = .assign targets op values := by
  refine (lowerExprs_points hseq targets ht).bind fun targets' ht' => ?_
  refine (lowerExprs_points hseq values hv).bind fun values' hv' => ?_
  split
  · refine .pure ⟨⟨ht', (exprsFit_iff _).2 fun e he => ?_⟩, _, _, _, rfl⟩
    obtain ⟨value, hvalue, rfl⟩ := mem_map.1 he
    exact complement_fits ((exprsFit_iff _).1 hv' value hvalue)
  · exact .pure ⟨⟨ht', hv'⟩, _, _, _, rfl⟩

end Expressions

/-! ## The walk -/

/-- The statement stays where it was, flat or a branch if it was one. -/
structure Stays (x y : Stmt) : Prop where
  span : y.span = x.span
  flat : y.isFlat = x.isFlat
  branch : y.isBranch = x.isBranch

/-- What a lowered header statement is within a strict norm. -/
def HeadsAs (norm : Norm) (stmt out : Option Stmt) : Prop :=
  norm.strict → ∀ y ∈ out, y.isFlat = true ∧ ∃ x ∈ stmt, y.span = x.span

/-- The statement can be lowered in a header: it is flat in a strict norm, and either nothing is put
in front of it or it may be reported. -/
def InHeader (norm : Norm) (env : Env) (x : Stmt) : Prop :=
  (norm.strict → x.isFlat = true) ∧ (norm.post x.span ∨ env.needsSplice x = false)

/-- What the walk with a given amount of fuel points at, function by function. -/
structure WalkPoints (norm : Norm) (fuel : Nat) : Prop where
  seq : ∀ frame declared stmts, (∀ x ∈ stmts, x.Fits norm) →
    Points norm (lowerSeq fuel frame declared stmts) fun out => ∀ x ∈ out, x.Fits norm
  step : ∀ frame declared stmt, stmt.Fits norm →
    Points norm (stepAt fuel frame declared stmt) fun step => (∀ x ∈ step.stmts, x.Fits norm) ∧
      ∀ x more, step = .enter x more → frame.env.hoists x = false
  stmt : ∀ frame stmt, stmt.Fits norm → (norm.strict → frame.env.hoists stmt = false) →
    Points norm (lowerStmt fuel frame stmt) fun out => out.Fits norm ∧ Stays stmt out
  block : ∀ frame block, block.Fits norm →
    Points norm (lowerBlock fuel frame block) fun out => out.Fits norm
  arms : ∀ frame clauses, casesFit norm clauses →
    Points norm (lowerCases fuel frame clauses) (casesFit norm)
  header : ∀ frame stmt, stmt?Fits norm stmt → (∀ x ∈ stmt, InHeader norm frame.env x) →
    Points norm (lowerHeader fuel frame stmt) fun out => stmt?Fits norm out ∧ HeadsAs norm stmt out

namespace WalkPoints

variable {fuel : Nat}

theorem zero : WalkPoints norm 0 where
  seq _ _ _ _ := by unfold lowerSeq; exact .outOfFuel
  step _ _ _ _ := by unfold stepAt; exact .outOfFuel
  stmt _ _ _ _ := by unfold lowerStmt; exact .outOfFuel
  block _ _ _ := by unfold lowerBlock; exact .outOfFuel
  arms _ _ _ := by unfold lowerCases; exact .outOfFuel
  header _ _ _ _ := by unfold lowerHeader; exact .outOfFuel

theorem requireOwn (h : stmt.Fits norm) :
    Points norm (requireLegal (stmt.ownViolations.map Violation.report)) fun _ => True :=
  .requireLegal h.allows_own.reports

variable (walk : WalkPoints norm fuel)
include walk

theorem seq_succ (frame : Frame) (declared : List String) (stmts : List Stmt)
    (h : ∀ x ∈ stmts, x.Fits norm) :
    Points norm (lowerSeq (fuel + 1) frame declared stmts) fun out => ∀ x ∈ out, x.Fits norm := by
  cases stmts with
  | nil => exact .pure (by simp)
  | cons stmt rest =>
    obtain ⟨hstmt, hrest⟩ := forall_mem_cons.1 h
    refine (requireOwn hstmt).bind fun _ _ => ?_
    refine (walk.step frame declared stmt hstmt).bind fun step hstep => ?_
    obtain ⟨hstep, hhoists⟩ := hstep
    cases step with
    | revisit stmts => exact walk.seq frame declared _ (forall_mem_append.2 ⟨hstep, hrest⟩)
    | enter entered more =>
      obtain ⟨hentered, hmore⟩ := forall_mem_cons.1 hstep
      refine (walk.stmt frame entered hentered fun _ => hhoists entered more rfl).bind
        fun out hout => ?_
      refine (walk.seq frame _ _ (forall_mem_append.2 ⟨hmore, hrest⟩)).bind
        fun outs houts => .pure ?_
      exact forall_mem_cons.2 ⟨hout.1, houts⟩

omit walk in
/-- A step at a statement that stays where it is. -/
theorem stepOf_points {plan : Option ReturnPlan} (declared : List String)
    (hhoists : env.hoists stmt = false) (hpost : env.splitsPost stmt = false) (h : stmt.Fits norm) :
    Points norm (stepOf ⟨env, plan⟩ declared stmt) fun step => (∀ x ∈ step.stmts, x.Fits norm) ∧
      ∀ x more, step = .enter x more → env.hoists x = false := by
  intro s hs
  obtain ⟨hspan, hform⟩ := (Stmt.fits_iff stmt).1 h
  refine (stepOf_visits declared hhoists hpost).mono ?_ fun r hr => hr.at h
  intro step s' hstep
  cases hstep with
  | hoist hinit =>
    obtain ⟨hinit, hinner⟩ := withoutInit_fits h hinit
    exact ⟨hs, forall_mem_singleton.2
      ⟨hspan, hspan, hinit, ⟨hspan, hinner⟩, trivial⟩, nofun⟩
  | post hloop hneeds => simp [Env.splitsPost, hloop, hneeds] at hpost
  | split hdecl hnew =>
    rw [hdecl] at hform
    obtain ⟨-, ⟨hnames, hvalue⟩, -⟩ := hform
    refine ⟨hs, forall_mem_cons.2 ⟨?_, forall_mem_singleton.2 ⟨hspan, ?_, hvalue⟩⟩,
      nofun⟩
    · rcases hnew with rfl | ⟨vars, -, rfl⟩
      · exact ⟨hspan, trivial⟩
      · exact Declares.fits ⟨rfl, vars, rfl⟩ hspan
    · simpa [Expr.Fits] using hnames
  | replace hrewrites heffects =>
    obtain ⟨hbefore, hform'⟩ := hrewrites.fits h
    refine ⟨heffects.warnedAt h hs, forall_mem_append.2 ⟨hbefore, ?_⟩, nofun⟩
    exact forall_mem_singleton.2 ⟨hspan, hform'⟩
  | settle _ _ _ hsettles =>
    refine ⟨?_, hsettles.fits h, ?_⟩
    · rw [State.WarnedAt, hsettles.warnings]
      exact hs
    · rintro x more rfl
      exact hoists_of_isPlain (hsettles.plain x mem_cons_self)
  | enter =>
    refine ⟨hs, forall_mem_singleton.2 h, ?_⟩
    rintro _ _ ⟨⟩
    exact hhoists

theorem step_succ (frame : Frame) (declared : List String) (stmt : Stmt) (h : stmt.Fits norm) :
    Points norm (stepAt (fuel + 1) frame declared stmt) fun step =>
      (∀ x ∈ step.stmts, x.Fits norm) ∧
        ∀ x more, step = .enter x more → frame.env.hoists x = false := by
  obtain ⟨env, plan⟩ := frame
  cases hhoists : env.hoists stmt with
  | true =>
    intro s hs
    unfold stepAt
    refine ensures_hoistInit.bind ?_
    intro r s1 hr
    cases r with
    | none => simp [hhoists] at hr
    | some block =>
      obtain ⟨init, inner, hform, rfl, rfl⟩ := hr
      obtain ⟨hinit, hinner⟩ := withoutInit_fits h hform
      exact ⟨hs, forall_mem_singleton.2
        ⟨h.span, h.span, hinit, ⟨h.span, hinner⟩, trivial⟩, by rintro _ _ ⟨⟩⟩
  | false =>
    cases hpost : env.splitsPost stmt with
    | false =>
      rw [stepAt_eq_stepOf hhoists hpost]
      exact stepOf_points declared hhoists hpost h
    | true =>
      unfold stepAt
      rw [hoistInit_eq_none hhoists, pure_bind]
      dsimp only
      split
      · rename_i init test post body hloop
        obtain ⟨id, span, form⟩ := stmt
        subst hloop
        obtain ⟨hspan, hinit, htest, hfits, hbody, hheads⟩ := h
        rw [if_pos (show env.needsDeclarations post = true from hpost)]
        -- the statement after a round is lowered alone, and one of the results takes its place
        intro s hs
        have hpoints := walk.seq ⟨env, plan⟩ [] [post] (forall_mem_singleton.2 hfits) s hs
        have hwalks := (walk_runs env fuel).seq plan [] [post] s
        refine Ensures.bind (.intro (fun _ _ hrun => And.intro (hpoints.of_ok hrun)
          (hwalks.of_ok hrun)) fun _ => hpoints.of_error) ?_
        rintro posts s1 ⟨⟨hs1, hposts⟩, hwalks⟩
        refine (WalkRuns.ensures_splitPost post.id posts
          (norm.unplaced _ (hheads.post (Stmt.Fits.span hfits)))).bind ?_
        rintro ⟨decls, post'⟩ _ ⟨rfl, hparts, -⟩
        have hall : ∀ x ∈ post' :: decls, x ∈ posts := fun x =>
          (perm_of_partition hparts).mem_iff.1
        obtain ⟨hpost', hdecls⟩ := forall_mem_cons.1 fun x hx => hposts x (hall x hx)
        refine ⟨hs1, forall_mem_append.2 ⟨hdecls, forall_mem_singleton.2
          ⟨hspan, hinit, htest, hpost', hbody, fun hstrict => ?_⟩⟩, by rintro _ _ ⟨⟩⟩
        obtain ⟨hflat, hplace, hbranch⟩ := hheads hstrict
        obtain ⟨hflat', hspan'⟩ := hwalks.keepsFlat post.span
          (forall_mem_singleton.2 ⟨(hplace post rfl).1, rfl⟩) post' (hall post' (.head _))
        exact ⟨hflat, by simpa [hflat', hspan'] using (hplace post rfl).2, hbranch⟩
      · simp_all [Env.splitsPost]

theorem block_succ (frame : Frame) (block : Block) (h : block.Fits norm) :
    Points norm (lowerBlock (fuel + 1) frame block) fun out => out.Fits norm := by
  obtain ⟨stmts, span⟩ := block
  refine (walk.seq frame [] stmts ((stmtsFit_iff _).1 h.2)).bind fun out hout => .pure ?_
  exact ⟨h.1, (stmtsFit_iff _).2 hout⟩

theorem literals (frame : Frame) : SequenceLowering.Pointing norm (lowerSeq fuel frame.literal) :=
  walk.seq frame.literal

theorem arms_succ (frame : Frame) (clauses : List CaseClause) (h : casesFit norm clauses) :
    Points norm (lowerCases (fuel + 1) frame clauses) (casesFit norm) := by
  cases clauses with
  | nil => exact .pure trivial
  | cons clause clauses =>
    obtain ⟨exprs, body, span⟩ := clause
    obtain ⟨⟨hspan, hlabel, hbody⟩, hclauses⟩ := h
    refine (lowerLabel_points (walk.literals frame) exprs hlabel).bind fun exprs' hlabel' => ?_
    refine (walk.seq frame [] body ((stmtsFit_iff _).1 hbody)).bind fun body' hbody' => ?_
    refine (walk.arms frame clauses hclauses).bind fun clauses' hclauses' => .pure ?_
    exact ⟨⟨hspan, hlabel', (stmtsFit_iff _).2 hbody'⟩, hclauses'⟩

theorem header_succ (frame : Frame) (stmt : Option Stmt) (h : stmt?Fits norm stmt)
    (hkeeps : ∀ x ∈ stmt, InHeader norm frame.env x) :
    Points norm (lowerHeader (fuel + 1) frame stmt)
      fun out => stmt?Fits norm out ∧ HeadsAs norm stmt out := by
  cases stmt with
  | none => exact .pure ⟨trivial, by simp [HeadsAs]⟩
  | some stmt =>
    obtain ⟨hflat, hplace⟩ := hkeeps stmt rfl
    have hstmt : stmt.Fits norm := h
    obtain ⟨id, span, form⟩ := stmt
    obtain ⟨hspan, hform⟩ := h
    -- what stands in the header is lowered there, and nothing moves a flat statement out
    have henter (form' : StmtForm) (hform' : form'.Fits norm span)
        (hflat' : norm.strict → (⟨id, span, form'⟩ : Stmt).isFlat = true) :
        Points norm (do return some (← lowerStmt fuel frame ⟨id, span, form'⟩))
          fun out => stmt?Fits norm out ∧ HeadsAs norm (some ⟨id, span, form⟩) out := by
      refine (walk.stmt frame ⟨id, span, form'⟩ ⟨hspan, hform'⟩ fun hstrict =>
        hoists_of_isFlat (hflat' hstrict)).bind fun out hout => .pure ⟨hout.1, fun hstrict => ?_⟩
      simpa using ⟨hout.2.flat.trans (hflat' hstrict), hout.2.span⟩
    refine (requireOwn hstmt).bind fun _ _ => ?_
    refine (replaceStmt_points [] hstmt).bind fun r hr => ?_
    split
    · exact henter form hform hflat
    · obtain ⟨hrewrites, hform⟩ := hr _ rfl
      exact henter _ hform fun hstrict => hrewrites.flat (hflat hstrict)
    · rename_i r hbefore
      obtain ⟨hrewrites, -⟩ := hr r rfl
      have hne : r.before ≠ [] := fun hnil => hbefore r.form (by rw [← hnil])
      refine .fail (norm.unplaced _ (hplace.resolve_right ?_))
      simp [hrewrites.needsSplice hne]

omit walk in
theorem wrapElse_points (h : stmt.Fits norm) :
    Points norm (wrapElse env stmt) fun wrapped => wrapped.Fits norm ∧
      (stmt.isBranch = true → env.hoists wrapped = false ∧ wrapped.isBranch = true) := by
  intro s hs
  refine (WalkRuns.ensures_wrapElse stmt).imp ?_
  rintro wrapped s' (⟨rfl, rfl, hneeds⟩ | ⟨rfl, rfl, -⟩)
  · exact ⟨hs, h, fun hbranch => ⟨hoists_of_isBranch hbranch hneeds, hbranch⟩⟩
  · exact ⟨hs, ⟨h.span, h.span, h, trivial⟩, fun _ => ⟨rfl, rfl⟩⟩

theorem stmt_succ (frame : Frame) (stmt : Stmt) (h : stmt.Fits norm)
    (hhoists : norm.strict → frame.env.hoists stmt = false) :
    Points norm (lowerStmt (fuel + 1) frame stmt) fun out => out.Fits norm ∧ Stays stmt out := by
  have hlit := walk.literals frame
  obtain ⟨id, span, form⟩ := stmt
  obtain ⟨hspan, hform⟩ := h
  -- the initializer that is still in a header has nothing to put in front
  have hkeeps {init : Option Stmt} (hinit : stmt?Fits norm init)
      (hflat : norm.strict → ∀ x ∈ init, x.isFlat = true)
      (hheader : ∀ x ∈ init, ∃ inner, form.withoutInit = some (x, inner)) :
      ∀ x ∈ init, InHeader norm frame.env x := by
    intro x hx
    obtain ⟨inner, hinner⟩ := hheader x hx
    refine ⟨fun hstrict => hflat hstrict x hx, ?_⟩
    by_cases hstrict : norm.strict
    · exact .inr (needsSplice_of_hoists hinner (hhoists hstrict))
    · exact .inl (norm.lenient hstrict _ ((stmt?Fits_iff init).1 hinit x hx).span)
  cases form with
  | decl decl =>
    obtain ⟨keyword, specs, place⟩ := decl
    refine (lowerGenDecl_points hlit ⟨keyword, specs, place⟩ hform.2).bind ?_
    rintro ⟨keyword', specs', place'⟩ ⟨rfl, hspecs⟩
    exact .pure ⟨⟨hspan, hform.1, hspecs⟩, rfl, rfl, rfl⟩
  | expr e | incDec e increments =>
    exact (lowerExpr_points hlit e hform).bind fun _ he => .pure ⟨⟨hspan, he⟩, rfl, rfl, rfl⟩
  | assign targets op values =>
    refine (lowerAssign_points hlit op hform.1 hform.2).bind fun _ hf => .pure ⟨⟨hspan, hf.1⟩, ?_⟩
    obtain ⟨targets', op', values', rfl⟩ := hf.2
    exact ⟨rfl, rfl, rfl⟩
  | ret values =>
    exact (lowerExprs_points hlit values hform).bind fun _ hv => .pure ⟨⟨hspan, hv⟩, rfl, rfl, rfl⟩
  | block block =>
    exact (walk.block frame block hform).bind fun _ hb => .pure ⟨⟨hspan, hb⟩, rfl, rfl, rfl⟩
  | cond init test body otherwise =>
    obtain ⟨hinit, htest, hbody, hotherwise, hheads⟩ := hform
    refine (walk.header frame init hinit (hkeeps hinit (fun hstrict => (hheads hstrict).1) ?_)).bind
      fun init' hinit' => ?_
    · rintro x rfl
      exact ⟨_, rfl⟩
    refine (lowerExpr_points hlit test htest).bind fun test' htest' => ?_
    refine (walk.block frame body hbody).bind fun body' hbody' => ?_
    have hflat (hstrict : norm.strict) : ∀ x ∈ init', x.isFlat = true := fun x hx =>
      (hinit'.2 hstrict x hx).1
    cases otherwise with
    | none =>
      refine .pure ⟨⟨hspan, hinit'.1, htest', hbody', trivial, ?_⟩, rfl, rfl, rfl⟩
      exact fun hstrict => ⟨hflat hstrict, by simp⟩
    | some stmt =>
      refine (wrapElse_points hotherwise).bind fun wrapped hwrapped => ?_
      refine (requireOwn hwrapped.1).bind fun _ _ => ?_
      have hbranch (hstrict : norm.strict) := hwrapped.2 ((hheads hstrict).2.2 stmt rfl)
      refine (walk.stmt frame wrapped hwrapped.1 fun hstrict => (hbranch hstrict).1).bind
        fun out hout => .pure ⟨⟨hspan, hinit'.1, htest', hbody', hout.1, ?_⟩, rfl, rfl, rfl⟩
      exact fun hstrict =>
        ⟨hflat hstrict, by simp, by simpa using hout.2.branch.trans (hbranch hstrict).2⟩
  | switch init tag clauses =>
    obtain ⟨hinit, htag, hclauses, hheads⟩ := hform
    refine (walk.header frame init hinit (hkeeps hinit (fun hstrict => (hheads hstrict).1) ?_)).bind
      fun init' hinit' => ?_
    · rintro x rfl
      exact ⟨_, rfl⟩
    refine (lowerExpr?_points hlit tag htag).bind fun tag' htag' => ?_
    refine (walk.arms frame clauses hclauses).bind fun clauses' hclauses' =>
      .pure ⟨⟨hspan, hinit'.1, htag', hclauses', fun hstrict => ?_⟩, rfl, rfl, rfl⟩
    exact ⟨fun x hx => (hinit'.2 hstrict x hx).1, by simp⟩
  | loop init test post body =>
    obtain ⟨hinit, htest, hpost, hbody, hheads⟩ := hform
    refine (walk.header frame init hinit (hkeeps hinit (fun hstrict => (hheads hstrict).1) ?_)).bind
      fun init' hinit' => ?_
    · rintro x rfl
      exact ⟨_, rfl⟩
    refine (lowerExpr?_points hlit test htest).bind fun test' htest' => ?_
    refine (walk.header frame post hpost ?_).bind fun post' hpost' => ?_
    · rintro x rfl
      exact ⟨fun hstrict => ((hheads hstrict).2.1 x rfl).1,
        .inl (hheads.post (Stmt.Fits.span hpost))⟩
    refine (walk.block frame body hbody).bind fun body' hbody' =>
      .pure ⟨⟨hspan, hinit'.1, htest', hpost'.1, hbody', fun hstrict => ?_⟩, rfl, rfl, rfl⟩
    refine ⟨fun x hx => (hinit'.2 hstrict x hx).1, fun y hy => ?_, by simp⟩
    obtain ⟨hflat, x, hx, hplace⟩ := hpost'.2 hstrict y hy
    exact ⟨hflat, hplace ▸ ((hheads hstrict).2.1 x hx).2⟩
  | range key value defines subject body =>
    obtain ⟨hkey, hvalue, hsubject, hbody⟩ := hform
    refine (lowerExpr?_points hlit key hkey).bind fun key' hkey' => ?_
    refine (lowerExpr?_points hlit value hvalue).bind fun value' hvalue' => ?_
    refine (lowerExpr_points hlit subject hsubject).bind fun subject' hsubject' => ?_
    exact (walk.block frame body hbody).bind fun body' hbody' =>
      .pure ⟨⟨hspan, hkey', hvalue', hsubject', hbody'⟩, rfl, rfl, rfl⟩
  | empty | jump | labeled | go | defer | send | select | typeSwitch =>
    exact .pure ⟨⟨hspan, hform⟩, rfl, rfl, rfl⟩

end WalkPoints

theorem walk_points (fuel : Nat) : WalkPoints norm fuel := by
  induction fuel with
  | zero => exact .zero
  | succ fuel walk =>
    exact ⟨walk.seq_succ, walk.step_succ, walk.stmt_succ, walk.block_succ, walk.arms_succ,
      walk.header_succ⟩

/-! ## Functions and files -/

section Files

variable {fuel : Nat} {env : Env}

theorem lowerFunc_points {func : FuncDecl} (hhead : norm.Admits func.headReports)
    (h : ∀ body ∈ func.body, body.Fits norm) :
    Points norm (lowerFunc fuel env func) fun func' => ∀ body ∈ func'.body, body.Fits norm := by
  have hbody : (lowerHead func).func.body = func.body := rfl
  refine (Points.requireLegal hhead).bind fun _ _ => ?_
  dsimp only
  rw [hbody]
  cases hf : func.body with
  | none => exact .pure (by simp [hbody, hf])
  | some body =>
    obtain ⟨hspan, hstmts⟩ := (Block.fits_iff body).1 (h body hf)
    refine (declareAny_points _ hspan).bind fun locals hlocals => ?_
    refine ((walk_points fuel).seq _ _ _ (forall_mem_append.2 ⟨hlocals, hstmts⟩)).bind
      fun out hout => .pure ?_
    rintro _ ⟨⟩
    exact ⟨hspan, (stmtsFit_iff _).2 hout⟩

theorem lowerDecl_points {decl : Decl} (h : decl.Fits norm)
    (hheads : ∀ func, decl = .func func → norm.Admits func.headReports) :
    Points norm (lowerDecl fuel env decl) fun decl' => decl'.Fits norm := by
  cases decl with
  | func decl => exact (lowerFunc_points (hheads decl rfl) h).bind fun _ hf => .pure hf
  | gen decl =>
    have hlit : SequenceLowering.Pointing norm (lowerSeq fuel ⟨env, none⟩) :=
      (walk_points fuel).seq ⟨env, none⟩
    refine (Points.requireLegal (specsFit_allows decl.specs h).reports).bind fun _ _ => ?_
    exact (lowerGenDecl_points hlit decl h).bind fun _ hspecs => .pure hspecs.2

/-- A lowering of a file within the norm warns and stops within it, and gives such a file. -/
theorem lowerWith_points {file : SourceFile} (h : ∀ decl ∈ file.decls, decl.Fits norm)
    (hheads : ∀ func, .func func ∈ file.decls → norm.Admits func.headReports) (fuel : Nat)
    (resolver : Resolver) (options : Options) :
    (∀ lowered, file.lowerWith fuel resolver options = .ok lowered →
      (∀ d ∈ lowered.warnings, norm.span d.span) ∧
        ∀ decl ∈ lowered.file.decls, decl.Fits norm) ∧
    ∀ r, file.lowerWith fuel resolver options = .error r → r.At norm := by
  have hdecls : Points norm (file.decls.mapM (lowerDecl fuel ⟨resolver, options, shapesOf file⟩))
      fun decls => ∀ decl ∈ decls, decl.Fits norm :=
    .mapM fun decl hdecl => lowerDecl_points (h decl hdecl) fun func hfunc =>
      hheads func (hfunc ▸ hdecl)
  obtain ⟨hok, herror⟩ := lowerWith_outcome (hdecls { nextId := file.nextId } nofun)
  refine ⟨fun lowered hl => ?_, herror⟩
  obtain ⟨s, hs, hlowered⟩ := hok lowered hl
  refine ⟨?_, hs.2⟩
  rw [hlowered]
  exact hs.1

end Files

end ScriptLowering.Lowering
