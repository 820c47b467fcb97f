import ScriptLowering.Proofs.Respelling

/-!
# What the walk leaves is at rest

A statement is at rest when no rule applies at it or at anything in it, wherever that stands: as a
member of a list, in a header, or behind an `else`. The walk leaves only statements at rest.

A rule is not tried again at a header statement that a rule has changed, so there it takes an
argument that the changed one is at rest. It rests on the places in a parsed file: a subscript
reads a container at the statement that evaluates it exactly when it reads one at its own place,
and at its own place none was left. Header statements that the walk has made itself need not have
this property; no rule applies at them.
-/

namespace ScriptLowering

open List

variable {form : StmtForm} {test : Expr} {span : Span} {args xs : List Expr}

theorem Stmt.Throughout.mono {p q} {stmt : Stmt} (h : stmt.Throughout p)
    (hpq : ∀ form, p form → q form) : stmt.Throughout q :=
  fun literal x hx => hpq x.form (h literal x hx)

namespace Lowering

/-! ## At rest -/

/-- No header of the statement needs declarations. -/
def Env.Ready (env : Env) (stmt : Stmt) : Prop :=
  isSupported stmt.form = true → ∀ y ∈ stmt.form.headers, env.needsDeclarations y = false

/-- At the statement every subscript gets the answer that it gets at its own place. -/
def Env.Trusts (env : Env) (stmt : Stmt) : Prop :=
  ∀ x ∈ surfaceOfExprs stmt.form.exprs,
    env.resolver.isContainerRead stmt.span x = env.resolver.isContainerRead x.span x

/-- The statement follows an `else` without a block around it. -/
def Env.Placed (env : Env) (stmt : Stmt) : Prop :=
  ∀ init test body otherwise, stmt.form = .cond init test body otherwise →
    init.any env.needsSplice = false ∧ env.readsElement stmt.span test = false

/-- What the walk is given: the places of a header statement can be trusted, unless no rule applies
at it. -/
structure Env.Steady (env : Env) (form : StmtForm) : Prop where
  headers : isSupported form = true →
    ∀ y ∈ form.headers, (env.Trusts y ∨ env.Idle y) ∧ env.Ready y
  branch : ∀ y ∈ form.branch?,
    env.Ready y ∨ ∃ init test body otherwise, y.form = .cond init test body otherwise

/-- No rule applies at what stands directly in the form, and entering its expressions changes
nothing. -/
structure Env.Rests (env : Env) (form : StmtForm) : Prop where
  still : env.resolver.Still (surfaceOfExprs form.exprs)
  spelled : ∀ targets values, form ≠ .assign targets .andNot values
  headers : ∀ y ∈ form.headers, env.Idle y ∧ env.Ready y ∧ env.needsDeclarations y = false
  members : ∀ xs ∈ form.lists, ∀ y ∈ xs, env.Quiet y
  branch : ∀ y ∈ form.branch?, env.Placed y ∧ env.Ready y

/-- The statement is a member of a list and at rest, with all that is in it. -/
def Env.AtRest (env : Env) (stmt : Stmt) : Prop := env.Quiet stmt ∧ stmt.Throughout env.Rests

section Rest

variable {env : Env} {stmt : Stmt}

theorem Env.Rests.steady (h : env.Rests form) : env.Steady form where
  headers _ y hy := ⟨.inr (h.headers y hy).1, (h.headers y hy).2.1⟩
  branch y hy := .inl (h.branch y hy).2

theorem Env.AtRest.steady (h : env.AtRest stmt) : stmt.Throughout env.Steady :=
  h.2.mono fun _ => Env.Rests.steady

theorem Rewrites.headers_eq_nil {r} (h : Rewrites env stmt r) : r.form.headers = [] := by
  obtain ⟨id, span, form⟩ := stmt
  obtain ⟨before, form'⟩ := r
  cases h.reforms with
  | action _ ha | without _ ha => cases ha <;> rfl

/-- The rules put no statement into a header and none behind an `else`. -/
theorem steady_lasts (env : Env) : Lasting env env.Steady where
  plain h := by
    obtain ⟨hheaders, hbranch, -⟩ := headers_of_isPlain h
    exact ⟨by simp [hheaders], by simp [hbranch]⟩
  block := ⟨by simp [StmtForm.headers], by simp [StmtForm.branch?]⟩
  withoutInit := by
    intro form inner init h hform
    have hheaders := hform.headers
    have hbranch := hform.branch
    cases StmtForm.opens h with
    | cond => exact ⟨by simp [StmtForm.headers], hbranch⟩
    | switch => exact ⟨by simp [StmtForm.headers], by simp [StmtForm.branch?]⟩
    | loop =>
      exact ⟨fun _ y hy => hheaders rfl y (mem_append_right _ hy), by simp [StmtForm.branch?]⟩
  rewrites := by
    intro stmt r h hform
    exact ⟨by simp [h.headers_eq_nil], by rw [h.blocks.2.1]; exact hform.branch⟩

theorem needsSplice_eq_false :
    env.needsSplice stmt = false ↔
      env.needsDeclarations stmt = false ∧ env.hasContainerWork stmt = false := by
  simp [Env.needsSplice]

theorem Env.Quiet.ready (h : env.Quiet stmt) : env.Ready stmt := by
  obtain ⟨-, hhoists, hpost, -⟩ := h
  intro hsupported y hy
  unfold Env.hoists at hhoists
  unfold Env.splitsPost at hpost
  cases hform : stmt.form with
  | cond init test body otherwise | switch init tag clauses =>
    simp only [hform, StmtForm.headers, Option.mem_toList] at hy
    obtain rfl : init = some y := hy
    simp only [hform, Bool.or_eq_false_iff, needsSplice_eq_false] at hhoists
    exact hhoists.2.1
  | loop init test post body =>
    simp only [hform, StmtForm.headers, mem_append, Option.mem_toList] at hy
    rcases hy with hy | hy
    · obtain rfl : init = some y := hy
      simp only [hform, needsSplice_eq_false] at hhoists
      exact hhoists.1
    · obtain rfl : post = some y := hy
      simpa only [hform] using hpost
  | typeSwitch | select => simp [hform, isSupported] at hsupported
  | _ => simp [hform, StmtForm.headers] at hy

theorem Env.Placed.ready (h : env.Placed stmt) {init otherwise body}
    (hform : stmt.form = .cond init test body otherwise) : env.Ready stmt := by
  intro _ y hy
  simp only [hform, StmtForm.headers, Option.mem_toList] at hy
  obtain rfl : init = some y := hy
  exact (needsSplice_eq_false.1 (by simpa using (h _ _ _ _ hform).1)).1

end Rest

/-! ## Header statements that a rule changes -/

section InPlace

variable {env : Env} {stmt : Stmt} {resolver : Resolver}

/-- The form calls a function, and assigns the result to one target at most. -/
def Calls (form : StmtForm) : Prop :=
  ∃ call, call.isCall = true ∧
    (form = .expr call ∨ ∃ target, form = .assign [target] .assign [call])

theorem targetSurface_subset (isRead : Expr → Bool) (target : Expr) :
    targetSurface isRead target ⊆ target.surface := by
  unfold targetSurface
  cases target with
  | index span base key =>
    dsimp only
    split
    · rw [Expr.surface]
      exact subset_cons_self _ _
    · exact Subset.refl _
  | _ => exact Subset.refl _

/-- No rule applies at a call that evaluates no element. -/
theorem Calls.idle {id} (h : Calls form)
    (hclear : ∀ x ∈ surfaceOfExprs form.exprs, env.isElement span x = false) :
    env.Idle ⟨id, span, form⟩ ∧ env.needsDeclarations ⟨id, span, form⟩ = false ∧
      env.hasContainerWork ⟨id, span, form⟩ = false := by
  obtain ⟨call, hcall, rfl | ⟨target, rfl⟩⟩ := h
  · have hidle : env.Idle ⟨id, span, .expr call⟩ :=
      (quiet_expr (by simpa [StmtForm.exprs, surfaceOfExprs] using hclear)).idle
    exact ⟨hidle, rfl, hasContainerWork_eq_false hidle (by simp) (by simp)⟩
  · simp only [StmtForm.exprs, surfaceOfExprs_append, forall_mem_append, surfaceOfExprs,
      append_nil] at hclear
    have htarget := hclear.1 target target.mem_surface_self
    have hvalue := hclear.2 call call.mem_surface_self
    have hidle : env.Idle ⟨id, span, .assign [target] .assign [call]⟩ := by
      refine ⟨⟨?_, ?_, by simp, ?_, rfl⟩, fun _ => extractForm_eq_none.2 ?_⟩
      · unfold writeElement
        split
        · rename_i place base key value hform
          obtain ⟨htargets, -, -⟩ := StmtForm.assign.inj hform
          obtain rfl := singleton_inj.1 htargets
          exact if_neg (by simp [htarget])
        · rfl
      · intro targets op place base key hform _
        obtain ⟨-, -, hvalues⟩ := StmtForm.assign.inj hform
        obtain rfl := singleton_inj.1 hvalues
        simp [Expr.isCall] at hcall
      · intro targets place callee args spread hform
        obtain ⟨rfl, -⟩ := StmtForm.assign.inj hform
        simp
      · simp only [StmtForm.evaluated, flatMap_cons, flatMap_nil, append_nil,
          surfaceOfExprs, forall_mem_append]
        exact ⟨fun x hx => hclear.1 x (targetSurface_subset _ _ hx), hclear.2⟩
    refine ⟨hidle, ?_, hasContainerWork_eq_false hidle (by simp) ?_⟩
    · simp [Env.needsDeclarations, hvalue]
    · intro targets op values hform hop
      obtain ⟨-, rfl, -⟩ := StmtForm.assign.inj hform
      simp [AssignOp.combines?] at hop

theorem named_stems {target target'} (h : Named target target') :
    resolver.Stems target.surface target'.surface := by
  rcases h with rfl | ⟨-, name, rfl⟩
  · exact .of_subset (Subset.refl _)
  · rw [show (Expr.ident target.span name).surface = [.ident target.span name] from rfl]
    exact Resolver.stems_nil.new fun _ => rfl

/-- The address of a target holds the subscripts of the target. -/
theorem stems_address {target : Expr} (h : resolver.Stems xs target.surface) :
    resolver.Stems xs target.address.surface := by
  rw [Expr.address, Expr.surface]
  exact h.new fun _ => rfl

theorem stems_surfaceOfExprs {es} (h : ∀ e ∈ es, resolver.Stems xs e.surface) :
    resolver.Stems xs (surfaceOfExprs es) := by
  intro y hy
  obtain ⟨e, he, hy⟩ := mem_surfaceOfExprs.1 hy
  exact h e he y hy

/-- So does a call its arguments. -/
theorem stems_call {callee spread} (hcallee : resolver.Stems xs callee.surface)
    (hargs : ∀ e ∈ args, resolver.Stems xs e.surface) :
    resolver.Stems xs (Expr.call span callee args spread).surface := by
  rw [Expr.surface]
  refine Resolver.Stems.new ?_ fun _ => rfl
  exact forall_mem_append.2 ⟨hcallee, stems_surfaceOfExprs hargs⟩

theorem stems_callOf {name} (hargs : ∀ e ∈ args, resolver.Stems xs e.surface) :
    resolver.Stems xs (Expr.callOf name args span).surface := by
  refine stems_call ?_ hargs
  rw [show (Expr.ident span name).surface = [.ident span name] from rfl]
  exact Resolver.stems_nil.new fun _ => rfl

theorem completedForm_calls {shape : List Nat} {targets callee spread}
    (htargets : ∀ target ∈ targets, resolver.Stems xs target.surface)
    (hcallee : resolver.Stems xs callee.surface) (hargs : ∀ e ∈ args, resolver.Stems xs e.surface) :
    Calls (completedForm shape targets span callee args spread) ∧ resolver.Stems xs
      (surfaceOfExprs (completedForm shape targets span callee args spread).exprs) := by
  unfold completedForm
  extract_lets outs call
  have hcall : resolver.Stems xs call.surface := by
    refine stems_call hcallee (forall_mem_append.2 ⟨hargs, ?_⟩)
    intro e he
    obtain ⟨position, -, hout⟩ := mem_filterMap.1 he
    obtain ⟨target, htarget, rfl⟩ := Option.map_eq_some_iff.1 hout
    exact stems_address (htargets target (mem_of_getElem? htarget))
  split
  · rename_i first hfirst
    have hmem : first ∈ targets := by
      split at hfirst
      · exact mem_of_mem_head? (Option.filter_eq_some_iff.1 hfirst).1
      · contradiction
    refine ⟨⟨call, rfl, .inr ⟨first, rfl⟩⟩, stems_surfaceOfExprs ?_⟩
    simp only [StmtForm.exprs, cons_append, nil_append, forall_mem_cons]
    exact ⟨htargets first hmem, hcall, by simp⟩
  · refine ⟨⟨call, rfl, .inl rfl⟩, stems_surfaceOfExprs ?_⟩
    simpa [StmtForm.exprs] using hcall

/-- A rule that puts nothing in front of a statement that needs no declarations leaves a call, whose
subscripts stem from those of the statement. -/
theorem Rewrites.inPlace_calls (resolver : Resolver) (h : Rewrites env stmt ⟨[], form⟩)
    (hneeds : env.needsDeclarations stmt = false) :
    Calls form ∧ resolver.Stems (surfaceOfExprs stmt.form.exprs) (surfaceOfExprs form.exprs) := by
  have hmem {e : Expr} (he : e ∈ stmt.form.exprs) :
      e.surface ⊆ surfaceOfExprs stmt.form.exprs :=
    fun x hx => mem_surfaceOfExprs.2 ⟨e, he, hx⟩
  have hindex {span : Span} {base key : Expr} (he : .index span base key ∈ stmt.form.exprs) :
      base.surface ⊆ surfaceOfExprs stmt.form.exprs ∧
        key.surface ⊆ surfaceOfExprs stmt.form.exprs := by
    have hsurface := hmem he
    have htail := Subset.trans (subset_cons_self _ _) hsurface
    exact ⟨Subset.trans (subset_append_left _ _) htail,
      Subset.trans (subset_append_right _ _) htail⟩
  have hone {e : Expr} (he : resolver.Stems (surfaceOfExprs stmt.form.exprs) e.surface) :
      resolver.Stems (surfaceOfExprs stmt.form.exprs) (surfaceOfExprs [e]) :=
    stems_surfaceOfExprs (forall_mem_singleton.2 he)
  generalize hr : (⟨[], form⟩ : Replacement) = r at h
  cases h with
  | @write _ _ _ value hform =>
    cases hr
    obtain ⟨hbase, hkey⟩ := hindex (by rw [hform]; exact mem_cons_self)
    have hvalue : value ∈ stmt.form.exprs := by simp [hform, StmtForm.exprs]
    refine ⟨⟨_, rfl, .inl rfl⟩, hone (stems_callOf ?_)⟩
    simp only [forall_mem_cons]
    exact ⟨.of_subset hbase, .of_subset hkey, .of_subset (hmem hvalue), by simp⟩
  | @read _ span base key first target _ _ hform _ _ hnamed =>
    cases hr
    obtain ⟨hbase, hkey⟩ := hindex
      (by rw [hform]; exact mem_append_right _ (mem_singleton_self _))
    have hfirst : first ∈ stmt.form.exprs := by simp [hform, StmtForm.exprs]
    have hcall : resolver.Stems (surfaceOfExprs stmt.form.exprs)
        (env.readCall base key target stmt.span).surface := by
      refine stems_callOf ?_
      simp only [forall_mem_cons]
      exact ⟨.of_subset hbase, .of_subset hkey,
        stems_address ((Resolver.Stems.of_subset (hmem hfirst)).trans (named_stems hnamed)),
        by simp⟩
    unfold Env.readForm
    split
    · rename_i flag hflag
      have hsecond : flag ∈ stmt.form.exprs := by
        simp [hform, StmtForm.exprs, (Option.filter_eq_some_iff.1 hflag).1]
      refine ⟨⟨_, rfl, .inr ⟨flag, rfl⟩⟩, stems_surfaceOfExprs ?_⟩
      simp only [StmtForm.exprs, cons_append, nil_append, forall_mem_cons]
      exact ⟨.of_subset (hmem hsecond), hcall, by simp⟩
    · exact ⟨⟨_, rfl, .inl rfl⟩, hone hcall⟩
  | define hform hcount =>
    have hdeclares : env.needsDeclarations stmt = true := by
      simp [Env.needsDeclarations, hform, hcount]
    simp [hneeds] at hdeclares
  | @complete _ span callee args spread _ _ hform _ hnamed =>
    cases hr
    have hcall : (Expr.call span callee args spread).surface ⊆
        surfaceOfExprs stmt.form.exprs := hmem (by simp [hform, StmtForm.exprs])
    have htail := Subset.trans (subset_cons_self _ _) hcall
    have hcallee := Subset.trans (subset_append_left _ _) htail
    refine completedForm_calls ?_ (.of_subset hcallee) ?_
    · intro target' htarget'
      obtain ⟨target, htarget, hnamed⟩ := forall₂_exists_right hnamed htarget'
      have hmember : target ∈ stmt.form.exprs := by simp [hform, StmtForm.exprs, htarget]
      exact (Resolver.Stems.of_subset (hmem hmember)).trans (named_stems hnamed)
    · intro e he
      refine .of_subset fun x hx => htail (mem_append_right _ ?_)
      exact mem_surfaceOfExprs.2 ⟨e, he, hx⟩
  | update _ _ hreads | hoist _ _ hreads =>
    cases hr
    obtain ⟨_, _, _, _, hbefore, -⟩ := hreads
    contradiction

theorem Rewrites.inPlace_plain (h : Rewrites env stmt ⟨[], form⟩)
    (hneeds : env.needsDeclarations stmt = false) : isPlain form = true := by
  obtain ⟨⟨call, -, rfl | ⟨target, rfl⟩⟩, -⟩ := h.inPlace_calls .blind hneeds
  · rfl
  · rfl

/-- A rule applies only where one does. -/
theorem Rewrites.not_idle (h : Rewrites env stmt ⟨[], form⟩) : ¬ env.Idle stmt := by
  intro hidle
  generalize hr : (⟨[], form⟩ : Replacement) = r at h
  cases h with
  | write hform helement =>
    have hwrite := hidle.write
    simp [writeElement, hform, helement] at hwrite
  | @read _ span base key _ _ _ _ hform helement =>
    have hclear := extractForm_eq_none.1 (hidle.hoist "")
    have hmem : .index span base key ∈ StmtForm.evaluated (env.isElement stmt.span) stmt.form := by
      simp [hform, StmtForm.evaluated, surfaceOfExprs, Expr.mem_surface_self]
    simp [hclear _ hmem] at helement
  | define hform hcount => exact absurd (hidle.define _ _ hform) (Nat.not_le_of_lt hcount)
  | complete hform hcount =>
    exact absurd (hidle.complete _ _ _ _ _ hform) (Nat.not_le_of_lt hcount)
  | update hupdate => simp [hidle.update] at hupdate
  | hoist _ _ hreads =>
    cases hr
    obtain ⟨_, _, _, _, hbefore, -⟩ := hreads
    contradiction

/-- What stems from a statement whose places can be trusted, and is no element at its own place, is
none at the statement. -/
theorem Env.Trusts.clear (h : env.Trusts stmt)
    (hstems : env.resolver.Stems (surfaceOfExprs stmt.form.exprs) xs)
    (hstill : env.resolver.Still xs) : ∀ x ∈ xs, env.isElement stmt.span x = false := by
  intro x hx
  rcases hstems x hx with hnone | ⟨y, hy, hspan, hsame⟩
  · exact hnone stmt.span
  · calc env.resolver.isContainerRead stmt.span x
        = env.resolver.isContainerRead stmt.span y := (hsame stmt.span).symm
      _ = env.resolver.isContainerRead y.span y := h y hy
      _ = env.resolver.isContainerRead x.span x := hspan ▸ hsame y.span
      _ = false := (hstill x hx).2

/-- Entering a call leaves a call. -/
theorem LowersPlain.calls {table : Table} {lowerBody form' s s'}
    (h : LowersPlain env lowerBody form form' s s') (henv : env.resolver = table.resolver)
    (hform : Calls form) : Calls form' := by
  have hkept {e e' : Expr} (he : Alike e e') (hcall : e.isCall = true) : e'.isCall = true := by
    cases he with
    | call | callWith => rfl
    | _ => simp [Expr.isCall] at hcall
  obtain ⟨call, hcall, rfl | ⟨target, rfl⟩⟩ := hform
  · cases h with
    | expr h =>
      exact ⟨_, hkept ((lowerExpr_respells henv _).of_ok h).1.alike hcall, .inl rfl⟩
  · cases h with
    | assign _ htargets hvalues =>
      cases ((lowerExprs_respells henv _).of_ok htargets).1 with
      | cons _ hnil =>
        cases hnil
        cases ((lowerExprs_respells henv _).of_ok hvalues).1 with
        | cons hvalue hnil =>
          cases hnil
          exact ⟨_, hkept hvalue.alike hcall, .inr ⟨_, rfl⟩⟩

/-- No rule applies at what is left of a header statement that a rule has changed in its place. -/
theorem Rewrites.inPlace_idle {table : Table} {y} (h : Rewrites env stmt ⟨[], form⟩)
    (henv : env.resolver = table.resolver) (hentered : env.Entered ⟨stmt.id, stmt.span, form⟩ y)
    (htrusts : env.Trusts stmt ∨ env.Idle stmt) (hneeds : env.needsDeclarations stmt = false) :
    env.Idle y ∧ env.needsDeclarations y = false ∧ env.hasContainerWork y = false := by
  obtain ⟨id, span, form'⟩ := y
  obtain ⟨rfl, rfl, fuel, s, s', hform⟩ := hentered
  obtain ⟨hcalls, hstems⟩ := h.inPlace_calls env.resolver hneeds
  refine (hform.calls henv hcalls).idle ?_
  refine (htrusts.resolve_right h.not_idle).clear ?_ (henv ▸ (hform.still henv).1)
  exact hstems.trans (henv ▸ hform.stems henv)

end InPlace

/-! ## Forms -/

section Forms

variable {env : Env} {table : Table} {stmt : Stmt} {id : NodeId} {span place : Span}
  {init init' post post' otherwise otherwise' : Option Stmt} {stmts out : List Stmt}

/-- What is left of a header statement. -/
structure Env.KeepsHeader (env : Env) (x y : Option Stmt) : Prop where
  isSome : y.isSome = x.isSome
  rests : ∀ z ∈ y, env.Idle z ∧ env.Ready z ∧ env.needsDeclarations z = false
  needsSplice : x.any env.needsSplice = false → y.any env.needsSplice = false

section

variable (henv : env.resolver = table.resolver)
include henv

theorem readsElement_of_stems {e e'} (h : table.resolver.Stems e.surface e'.surface)
    (hread : env.readsElement span e = false) : env.readsElement span e' = false := by
  rw [readsElement_eq_false, isElement_eq henv] at hread ⊢
  exact h.clear hread

omit henv in
theorem keeps_block :
    env.Keeps ⟨id, span, .block ⟨stmts, place⟩⟩ ⟨id, span, .block ⟨out, place⟩⟩ where
  idle _ := idle_of_evaluated (by simp) (by simp) (by simp [StmtForm.evaluated])
  hoists _ := rfl
  splitsPost _ := rfl
  splitsDecl _ := rfl
  needsDeclarations _ _ := rfl
  hasContainerWork _ _ := rfl

theorem keeps_cond {test'} (hinit : env.KeepsHeader init init')
    (htest : table.resolver.Stems test.surface test'.surface) :
    env.Keeps ⟨id, span, .cond init test ⟨stmts, place⟩ otherwise⟩
      ⟨id, span, .cond init' test' ⟨out, place⟩ otherwise'⟩ := by
  have hsome := hinit.isSome
  refine .of_evaluated henv (by simp) (by simp) ?_ ?_ (fun _ => rfl) fun _ => rfl
  · cases init <;> cases init' <;> simp_all [StmtForm.evaluated]
  · intro hhoists
    cases init' with
    | none => rfl
    | some y =>
      obtain ⟨x, rfl⟩ := Option.isSome_iff_exists.1 hsome.symm
      simp only [Env.hoists, Bool.or_eq_false_iff] at hhoists ⊢
      refine ⟨readsElement_of_stems henv htest hhoists.1, ?_⟩
      simpa using hinit.needsSplice (by simpa using hhoists.2)

theorem keeps_switch {tag tag' clauses clauses'} (hinit : env.KeepsHeader init init')
    (htag : table.resolver.Stems (surfaceOfExpr? tag) (surfaceOfExpr? tag')) :
    env.Keeps ⟨id, span, .switch init tag clauses⟩ ⟨id, span, .switch init' tag' clauses'⟩ := by
  have hsome := hinit.isSome
  have hevaluated (init : Option Stmt) (tag : Option Expr) (clauses : List CaseClause)
      (isRead : Expr → Bool) : StmtForm.evaluated isRead (.switch init tag clauses) =
        if init.isSome then [] else surfaceOfExpr? tag := by
    cases init <;> cases tag <;> rfl
  have hany (tag : Option Expr) : tag.any (env.readsElement span) = false ↔
      ∀ x ∈ surfaceOfExpr? tag, table.resolver.isContainerRead span x = false := by
    cases tag <;> simp [surfaceOfExpr?, readsElement_eq_false, isElement_eq henv]
  refine .of_evaluated henv (by simp) (by simp) ?_ ?_ (fun _ => rfl) fun _ => rfl
  · rw [hevaluated, hevaluated, hsome]
    split
    · exact Resolver.stems_nil
    · exact htag
  · intro hhoists
    cases init' with
    | none => rfl
    | some y =>
      obtain ⟨x, rfl⟩ := Option.isSome_iff_exists.1 hsome.symm
      simp only [Env.hoists, Bool.or_eq_false_iff, hany] at hhoists ⊢
      refine ⟨htag.clear hhoists.1, ?_⟩
      simpa using hinit.needsSplice (by simpa using hhoists.2)

theorem keeps_loop {test test'} (hinit : env.KeepsHeader init init')
    (hpost : env.KeepsHeader post post') : env.Keeps ⟨id, span, .loop init test post ⟨stmts, place⟩⟩
      ⟨id, span, .loop init' test' post' ⟨out, place⟩⟩ := by
  have hsome := hinit.isSome
  refine .of_evaluated henv (by simp) (by simp) Resolver.stems_nil ?_ ?_ fun _ => rfl
  · intro hhoists
    cases init' with
    | none => rfl
    | some y =>
      obtain ⟨x, rfl⟩ := Option.isSome_iff_exists.1 hsome.symm
      simpa [Env.hoists] using hinit.needsSplice (by simpa [Env.hoists] using hhoists)
  · intro _
    cases post' with
    | none => rfl
    | some y => exact (hpost.rests y rfl).2.2

theorem keeps_range {key key' value value' defines subject subject'}
    (hsubject : table.resolver.Stems subject.surface subject'.surface) :
    env.Keeps ⟨id, span, .range key value defines subject ⟨stmts, place⟩⟩
      ⟨id, span, .range key' value' defines subject' ⟨out, place⟩⟩ :=
  .of_evaluated henv (by simp) (by simp) hsubject (fun _ => rfl) (fun _ => rfl) fun _ => rfl

theorem placed_cond {test'} (hinit : env.KeepsHeader init init')
    (htest : table.resolver.Stems test.surface test'.surface)
    (h : env.Placed ⟨id, span, .cond init test ⟨stmts, place⟩ otherwise⟩) :
    env.Placed ⟨id, span, .cond init' test' ⟨out, place⟩ otherwise'⟩ := by
  obtain ⟨hsplice, hread⟩ := h _ _ _ _ rfl
  intro init0 test0 body0 otherwise0 hform
  obtain ⟨rfl, rfl, -, -⟩ := StmtForm.cond.inj hform
  exact ⟨hinit.needsSplice hsplice, readsElement_of_stems henv htest hread⟩

end

/-- A statement is at rest when its parts are. -/
theorem throughout_rests (hstill : env.resolver.Still (surfaceOfExprs stmt.form.exprs))
    (hspelled : ∀ targets values, stmt.form ≠ .assign targets .andNot values)
    (hheaders : ∀ y ∈ stmt.form.headers, y.Throughout env.Rests ∧ env.Idle y ∧ env.Ready y ∧
      env.needsDeclarations y = false)
    (hbranch : ∀ y ∈ stmt.form.branch?, y.Throughout env.Rests ∧ env.Placed y ∧ env.Ready y)
    (hblocks : ∀ xs ∈ stmt.form.blocks, ∀ y ∈ xs, env.AtRest y)
    (hbodies : ∀ body ∈ stmt.form.bodies, ∀ y ∈ body, env.AtRest y) :
    stmt.Throughout env.Rests := by
  refine Stmt.throughout_iff.2 ⟨⟨hstill, hspelled, fun y hy => (hheaders y hy).2, ?_,
    fun y hy => (hbranch y hy).2⟩, ?_, fun body hbody y hy => (hbodies body hbody y hy).2⟩
  · intro xs hxs y hy
    rcases mem_append.1 hxs with hxs | hxs
    · exact (hbodies xs hxs y hy).1
    · exact (hblocks xs hxs y hy).1
  · intro y hy
    rcases StmtForm.inner_cases hy with hy | hy | ⟨xs, hxs, hy⟩
    · exact (hheaders y hy).1
    · exact (hbranch y hy).1
    · exact (hblocks xs hxs y hy).2

/-- What is known of the header statements of a statement that is entered. -/
theorem steady_headers (h : stmt.Throughout env.Steady) (hready : env.Ready stmt)
    (hsupported : isSupported stmt.form = true) :
    ∀ y ∈ stmt.form.headers, y.Throughout env.Steady ∧ (env.Trusts y ∨ env.Idle y) ∧
      env.Ready y ∧ env.needsDeclarations y = false := by
  obtain ⟨hform, hinner, -⟩ := Stmt.throughout_iff.1 h
  intro y hy
  obtain ⟨htrusts, hready'⟩ := hform.headers hsupported y hy
  exact ⟨hinner y (StmtForm.mem_inner (.inl hy)), htrusts, hready', hready hsupported y hy⟩

/-- So it is for what follows an `else`, and for the statements in a list. -/
theorem steady_branch (h : stmt.Throughout env.Steady) :
    ∀ y ∈ stmt.form.branch?, y.Throughout env.Steady ∧
      (env.Ready y ∨ ∃ init test body otherwise, y.form = .cond init test body otherwise) := by
  obtain ⟨hform, hinner, -⟩ := Stmt.throughout_iff.1 h
  intro y hy
  exact ⟨hinner y (StmtForm.mem_inner (.inr (.inl hy))), hform.branch y hy⟩

theorem steady_blocks (h : stmt.Throughout env.Steady) :
    ∀ xs ∈ stmt.form.blocks, ∀ y ∈ xs, y.Throughout env.Steady := by
  intro xs hxs y hy
  exact (Stmt.throughout_iff.1 h).2.1 y (StmtForm.mem_inner (.inr (.inr ⟨xs, hxs, hy⟩)))

/-- A loop whose post statement was lowered for itself, behind the declarations this made. -/
theorem steady_post {test post post' body} {posts decls : List Stmt}
    (hform : stmt.form = .loop init test (some post) body)
    (hparts : posts.partition (fun x => x.id == post.id) = ([post'], decls))
    (hall : ∀ x ∈ posts, env.AtRest x) (hstmt : stmt.Throughout env.Steady) :
    ∀ x ∈ decls ++ [⟨stmt.id, stmt.span, .loop init test (some post') body⟩],
      x.Throughout env.Steady := by
  obtain ⟨hsteady, hinner, hbodies⟩ := Stmt.throughout_iff.1 hstmt
  rw [hform] at hsteady hinner hbodies
  obtain ⟨hpost, hdecls⟩ : env.AtRest post' ∧ ∀ x ∈ decls, env.AtRest x :=
    forall_mem_cons.1 fun x hx => hall x ((perm_of_partition hparts).mem_iff.1 hx)
  refine forall_mem_append.2 ⟨fun x hx => (hdecls x hx).steady, ?_⟩
  rw [forall_mem_singleton]
  refine Stmt.throughout_iff.2 ⟨⟨fun _ y hy => ?_, by simp [StmtForm.branch?]⟩,
    fun y hy => ?_, hbodies⟩
  · rcases mem_append.1 hy with hy | hy
    · exact hsteady.headers rfl y (mem_append_left _ hy)
    · obtain rfl := mem_singleton.1 hy
      exact ⟨.inr hpost.1.idle, hpost.1.ready⟩
  · simp only [StmtForm.inner, Option.toList_some, mem_append, mem_singleton]
      at hy hinner
    rcases hy with (hy | rfl) | hy
    · exact hinner y (.inl (.inl hy))
    · exact hpost.steady
    · exact hinner y (.inr hy)

end Forms

/-! ## Runs -/

/-- What a run leaves of what it is given. -/
def Task.Rests (env : Env) : Task → Prop
  | .seq _ xs ys | .each _ xs ys => (∀ x ∈ xs, x.Throughout env.Steady) → ∀ y ∈ ys, env.AtRest y
  | .stmt _ x y => x.Throughout env.Steady → env.Ready x →
    y.Throughout env.Rests ∧ env.Keeps x y ∧ env.Ready y ∧ (env.Placed x → env.Placed y)
  | .header _ x y => (∀ x' ∈ x, x'.Throughout env.Steady ∧ (env.Trusts x' ∨ env.Idle x') ∧
      env.Ready x' ∧ env.needsDeclarations x' = false) →
    (∀ y' ∈ y, y'.Throughout env.Rests) ∧ env.KeepsHeader x y
  | .branch _ x y => (∀ x' ∈ x, x'.Throughout env.Steady ∧
      (env.Ready x' ∨ ∃ init test body otherwise, x'.form = .cond init test body otherwise)) →
    ∀ y' ∈ y, y'.Throughout env.Rests ∧ env.Placed y' ∧ env.Ready y'
  | .arms _ cs ds => (∀ x ∈ cs.flatMap (·.body), x.Throughout env.Steady) →
    (∀ body ∈ bodiesOfExprs (cs.flatMap CaseClause.labels), ∀ x ∈ body,
      x.Throughout env.Steady) →
    (∀ y ∈ ds.flatMap (·.body), env.AtRest y) ∧
      (∀ body ∈ bodiesOfExprs (ds.flatMap CaseClause.labels), ∀ y ∈ body, env.AtRest y) ∧
      env.resolver.Still (surfaceOfExprs (ds.flatMap CaseClause.labels))
  | .bodies bs bs' => (∀ body ∈ bs, ∀ x ∈ body, x.Throughout env.Steady) →
    ∀ body ∈ bs', ∀ y ∈ body, env.AtRest y

section Runs

variable {env : Env} {table : Table} {task : Task} {s s' : State}

theorem Walks.rests (h : Walks env task s s') (henv : env.resolver = table.resolver)
    (hpositive : env.Positive) (hplan : ∀ p ∈ task.plan?, p.Ascending) : task.Rests env := by
  have hsteady := steady_lasts env
  induction h with
  | nil | eachNil => intro _; simp
  | armsNil => intro _ _; simp [bodiesOfExprs, surfaceOfExprs]
  | bodiesNil => intro _; simp
  | hoist _ hform _ ih =>
    intro hstmts
    obtain ⟨hstmt, hrest⟩ := forall_mem_cons.1 hstmts
    exact ih hplan (forall_mem_cons.2 ⟨hsteady.of_withoutInit _ _ _ _ hform hstmt, hrest⟩)
  | @post _ _ _ _ _ _ post _ _ _ _ _ _ _ _ hform _ _ hparts _ _ ih ih' =>
    intro hstmts
    obtain ⟨hstmt, hrest⟩ := forall_mem_cons.1 hstmts
    obtain ⟨-, hinner, -⟩ := Stmt.throughout_iff.1 hstmt
    have hall := ih hplan (by simpa using hinner post (by simp [hform, StmtForm.inner]))
    refine ih' hplan ?_
    rw [append_cons]
    exact forall_mem_append.2 ⟨steady_post hform hparts hall hstmt, hrest⟩
  | @split _ _ _ _ _ _ _ _ _ s _ _ hform hnew _ ih =>
    intro hstmts
    obtain ⟨hstmt, hrest⟩ := forall_mem_cons.1 hstmts
    obtain ⟨hdecl, hassign⟩ := hsteady.of_split s.nextId hform hnew hstmt
    exact ih hplan (forall_mem_cons.2 ⟨hdecl, forall_mem_cons.2 ⟨hassign, hrest⟩⟩)
  | replace _ hrewrites _ _ ih =>
    intro hstmts
    obtain ⟨hstmt, hrest⟩ := forall_mem_cons.1 hstmts
    refine ih hplan ?_
    rw [append_cons]
    exact forall_mem_append.2 ⟨hsteady.of_rewrites hrewrites hpositive hstmt, hrest⟩
  | settle _ _ _ hsettles _ _ ih ih' =>
    intro hstmts
    obtain ⟨hstmt, hrest⟩ := forall_mem_cons.1 hstmts
    exact forall_mem_append.2
      ⟨ih hplan (hsteady.of_settles hsettles (hplan _ rfl) hstmt), ih' hplan hrest⟩
  | enter _ hquiet _ _ _ ih ih' | eachCons hquiet _ _ ih ih' =>
    intro hstmts
    obtain ⟨hstmt, hrest⟩ := forall_mem_cons.1 hstmts
    obtain ⟨hrests, hkeeps, -⟩ := ih hplan hstmt hquiet.ready
    exact forall_mem_cons.2 ⟨⟨hkeeps.quiet hquiet, hrests⟩, ih' hplan hrest⟩
  | @plain _ id span _ _ _ _ _ hform _ ih =>
    intro hstmt _
    obtain ⟨hstill, hspelled⟩ := hform.still henv
    obtain ⟨hheaders, hbranch, hblocks⟩ := headers_of_isPlain hform.isPlain.2
    have hbodies := ih Task.unplanned (Stmt.throughout_iff.1 hstmt).2.2
    refine ⟨throughout_rests (henv ▸ hstill) hspelled (by simp [hheaders]) (by simp [hbranch])
      (by simp [hblocks]) hbodies, hform.keeps henv id span, fun _ => by simp [hheaders],
      fun _ _ _ _ _ hcond => ?_⟩
    have hplain := hform.isPlain.2
    simp only at hcond
    simp [hcond, isPlain] at hplain
  | block _ ih =>
    intro hstmt _
    have hout := ih hplan (by simpa [StmtForm.blocks] using steady_blocks hstmt)
    refine ⟨throughout_rests (by simp [StmtForm.exprs, surfaceOfExprs]) (by simp)
      (by simp [StmtForm.headers]) (by simp [StmtForm.branch?])
      (by simpa [StmtForm.blocks] using hout)
      (by simp [StmtForm.bodies, StmtForm.exprs, bodiesOfExprs]), keeps_block,
      by simp [Env.Ready, StmtForm.headers], by simp [Env.Placed]⟩
  | @cond _ _ _ _ _ test _ _ _ _ _ _ _ _ _ _ _ _ _ htest _ _ _ ih1 ih2 ih3 ih4 =>
    intro hstmt hready
    obtain ⟨htest, hstill⟩ := (lowerExpr_respells henv test).of_ok htest
    obtain ⟨hinit, hkeeps⟩ :=
      ih1 hplan (by simpa [StmtForm.headers] using steady_headers hstmt hready rfl)
    have hbodies := ih2 Task.unplanned (bodies_cond .. ▸ (Stmt.throughout_iff.1 hstmt).2.2)
    have hout := ih3 hplan (by simpa [StmtForm.blocks] using steady_blocks hstmt)
    have hbranch := ih4 hplan (steady_branch hstmt)
    refine ⟨throughout_rests ?_ (by simp) ?_ hbranch (by simpa [StmtForm.blocks] using hout)
      (bodies_cond .. ▸ hbodies), keeps_cond henv hkeeps htest.surface, ?_,
      placed_cond henv hkeeps htest.surface⟩
    · simpa [StmtForm.exprs, surfaceOfExprs, henv] using hstill
    · intro y hy
      exact ⟨hinit y (Option.mem_toList.1 hy), hkeeps.rests y (Option.mem_toList.1 hy)⟩
    · intro _ y hy
      exact (hkeeps.rests y (Option.mem_toList.1 hy)).2.2
  | @switch _ _ _ _ _ tag _ _ _ _ _ _ _ _ _ htag _ _ ih1 ih2 ih3 =>
    intro hstmt hready
    obtain ⟨htag, hstill⟩ := (lowerExpr?_respells henv tag).of_ok htag
    obtain ⟨hinit, hkeeps⟩ :=
      ih1 hplan (by simpa [StmtForm.headers] using steady_headers hstmt hready rfl)
    have hbodies := (Stmt.throughout_iff.1 hstmt).2.2
    simp only [bodies_switch, mem_append, or_imp, forall_and] at hbodies
    have hblocks := steady_blocks hstmt
    obtain ⟨harms, hlabels, hstill'⟩ := ih3 hplan (by
      intro x hx
      obtain ⟨clause, hclause, hx⟩ := mem_flatMap.1 hx
      exact hblocks _ (mem_map_of_mem hclause) x hx) hbodies.2
    refine ⟨throughout_rests ?_ (by simp) ?_ (by simp [StmtForm.branch?]) ?_ ?_,
      keeps_switch henv hkeeps htag, ?_, by simp [Env.Placed]⟩
    · rw [StmtForm.exprs, surfaceOfExprs_append, surfaceOfExprs_toList]
      exact Resolver.still_append.2 ⟨henv ▸ hstill, hstill'⟩
    · intro y hy
      exact ⟨hinit y (Option.mem_toList.1 hy), hkeeps.rests y (Option.mem_toList.1 hy)⟩
    · intro xs hxs y hy
      obtain ⟨clause, hclause, rfl⟩ := mem_map.1 hxs
      exact harms y (mem_flatMap.2 ⟨clause, hclause, hy⟩)
    · simp only [bodies_switch, mem_append, or_imp, forall_and]
      exact ⟨ih2 Task.unplanned hbodies.1, hlabels⟩
    · intro _ y hy
      exact (hkeeps.rests y (Option.mem_toList.1 hy)).2.2
  | @loop _ _ _ _ _ test _ _ _ _ _ _ _ _ _ _ _ _ _ htest _ _ _ ih1 ih2 ih3 ih4 =>
    intro hstmt hready
    obtain ⟨-, hstill⟩ := (lowerExpr?_respells henv test).of_ok htest
    have hheaders := steady_headers hstmt hready rfl
    simp only [StmtForm.headers, forall_mem_append, Option.mem_toList] at hheaders
    obtain ⟨hinit, hkeeps⟩ := ih1 hplan hheaders.1
    obtain ⟨hpost, hkeeps'⟩ := ih3 hplan hheaders.2
    have hbodies := ih2 Task.unplanned (bodies_loop .. ▸ (Stmt.throughout_iff.1 hstmt).2.2)
    have hout := ih4 hplan (by simpa [StmtForm.blocks] using steady_blocks hstmt)
    refine ⟨throughout_rests ?_ (by simp) ?_ (by simp [StmtForm.branch?])
      (by simpa [StmtForm.blocks] using hout)
      (bodies_loop .. ▸ hbodies), keeps_loop henv hkeeps hkeeps', ?_,
      by simp [Env.Placed]⟩
    · rw [StmtForm.exprs, surfaceOfExprs_toList]
      exact henv ▸ hstill
    · simp only [StmtForm.headers, forall_mem_append, Option.mem_toList]
      exact ⟨fun y hy => ⟨hinit y hy, hkeeps.rests y hy⟩,
        fun y hy => ⟨hpost y hy, hkeeps'.rests y hy⟩⟩
    · intro _
      simp only [StmtForm.headers, forall_mem_append, Option.mem_toList]
      exact ⟨fun y hy => (hkeeps.rests y hy).2.2, fun y hy => (hkeeps'.rests y hy).2.2⟩
  | @range _ _ _ key _ value _ _ subject _ _ _ _ _ _ _ _ _ _ hkey hvalue hsubject _ _ ih ih' =>
    intro hstmt _
    obtain ⟨-, hstill⟩ := (lowerExpr?_respells henv key).of_ok hkey
    obtain ⟨-, hstill'⟩ := (lowerExpr?_respells henv value).of_ok hvalue
    obtain ⟨hsubject, hstill''⟩ := (lowerExpr_respells henv subject).of_ok hsubject
    have hbodies := ih Task.unplanned (bodies_range .. ▸ (Stmt.throughout_iff.1 hstmt).2.2)
    have hout := ih' hplan (by simpa [StmtForm.blocks] using steady_blocks hstmt)
    refine ⟨throughout_rests ?_ (by simp) (by simp [StmtForm.headers]) (by simp [StmtForm.branch?])
      (by simpa [StmtForm.blocks] using hout)
      (bodies_range .. ▸ hbodies), keeps_range henv hsubject.surface,
      by simp [Env.Ready, StmtForm.headers], by simp [Env.Placed]⟩
    simp only [StmtForm.exprs, surfaceOfExprs_append, surfaceOfExprs_toList, surfaceOfExprs,
      append_nil, Resolver.still_append, henv]
    exact ⟨⟨hstill, hstill'⟩, hstill''⟩
  | noHeader =>
    intro _
    exact ⟨by simp, rfl, by simp, fun _ => rfl⟩
  | @header _ stmt _ _ _ _ hidle _ ih =>
    intro hstmt
    obtain ⟨hsteady, -, hready, hneeds⟩ := hstmt stmt rfl
    obtain ⟨hrests, hkeeps, hready', -⟩ := ih hplan hsteady hready
    have hneeds' := hkeeps.needsDeclarations hidle hneeds
    refine ⟨by simpa using hrests, rfl, by simpa using ⟨hkeeps.idle hidle, hready', hneeds'⟩, ?_⟩
    simp only [Option.any_some, needsSplice_eq_false]
    exact fun h => ⟨hneeds', hkeeps.hasContainerWork hidle h.2⟩
  | @inPlace _ stmt _ _ _ _ _ _ hrewrites _ hwalks ih =>
    intro hstmt
    obtain ⟨hsteady', htrusts, -, hneeds⟩ := hstmt stmt rfl
    have hform := hsteady.of_rewrites hrewrites hpositive hsteady' _ (mem_singleton_self _)
    obtain ⟨hrests, -, hready, -⟩ := ih hplan hform fun _ => by simp [hrewrites.headers_eq_nil]
    obtain ⟨hidle, hneeds', hwork⟩ := hrewrites.inPlace_idle henv
      (hwalks.stmt_plain (hrewrites.inPlace_plain hneeds)).1 htrusts hneeds
    refine ⟨by simpa using hrests, rfl, by simpa using ⟨hidle, hready, hneeds'⟩, ?_⟩
    simp only [Option.any_some, needsSplice_eq_false]
    exact fun _ => ⟨hneeds', hwork⟩
  | noBranch =>
    intro _
    simp
  | @branch _ stmt _ _ _ _ hplaced _ ih =>
    intro hstmt
    obtain ⟨hsteady, hready⟩ := hstmt stmt rfl
    have hready : env.Ready stmt := by
      rcases hready with hready | ⟨init, test, body, otherwise, hform⟩
      · exact hready
      · exact Env.Placed.ready hplaced hform
    obtain ⟨hrests, -, hready', hplaced'⟩ := ih hplan hsteady hready
    simpa using ⟨hrests, hplaced' hplaced, hready'⟩
  | @wrap _ stmt _ _ _ _ _ _ _ _ _ ih =>
    intro hstmt
    have hmember := forall_mem_singleton.2 (hstmt stmt rfl).1
    obtain ⟨hrests, -, hready, hplaced⟩ := ih hplan (hsteady.throughout_block.2 hmember)
      (by simp [Env.Ready, StmtForm.headers])
    simpa using ⟨hrests, hplaced (by simp [Env.Placed]), hready⟩
  | @armsCons _ exprs _ _ _ _ _ _ _ _ _ _ _ hexprs _ _ _ ih1 ih2 ih3 =>
    intro hstmts hbodies
    simp only [flatMap_cons, mem_append, or_imp, forall_and] at hstmts
    simp only [flatMap_cons, bodiesOfExprs_append, mem_append, or_imp, forall_and]
      at hbodies
    obtain ⟨harms, hlabels, hstill⟩ := ih3 hplan hstmts.2 hbodies.2
    simp only [flatMap_cons, bodiesOfExprs_append, surfaceOfExprs_append, mem_append,
      or_imp, forall_and, Resolver.still_append]
    exact ⟨⟨ih2 hplan hstmts.1, harms⟩, ⟨ih1 Task.unplanned hbodies.1, hlabels⟩,
      henv ▸ (lowerLabel_still henv exprs).of_ok hexprs, hstill⟩
  | bodiesCons _ _ ih ih' =>
    intro hbodies
    obtain ⟨hbody, hrest⟩ := forall_mem_cons.1 hbodies
    exact forall_mem_cons.2 ⟨ih hplan hbody, ih' hplan hrest⟩

end Runs

end Lowering

end ScriptLowering
