import ScriptLowering.Proofs.Entering
import ScriptLowering.Proofs.Rewriting

/-!
# The walk as a relation

`Walks env task s s'` describes a successful run of the walk without its fuel: which rule was
applied where, and what it left. Whatever holds of every run is proved by induction on it, rule by
rule. A return that is lowered is described in one piece, the stores together with what is still
returned, although the walk visits each of them again.
-/

namespace ScriptLowering

open List

variable {x : Stmt} {env : Env} {halt : Halt → Prop}

/-- The initializer of a header, and the form without it. -/
def StmtForm.withoutInit : StmtForm → Option (Stmt × StmtForm)
  | .cond (some init) test body otherwise => some (init, .cond none test body otherwise)
  | .switch (some init) tag clauses => some (init, .switch none tag clauses)
  | .loop (some init) test post body => some (init, .loop none test post body)
  | _ => none

/-- The headers that `StmtForm.withoutInit` opens. -/
inductive StmtForm.Opens : StmtForm → Stmt → StmtForm → Prop
  | cond {init test body otherwise} :
    Opens (.cond (some init) test body otherwise) init (.cond none test body otherwise)
  | switch {init tag clauses} :
    Opens (.switch (some init) tag clauses) init (.switch none tag clauses)
  | loop {init test post body} :
    Opens (.loop (some init) test post body) init (.loop none test post body)

theorem StmtForm.opens {form inner : StmtForm} {init} (h : form.withoutInit = some (init, inner)) :
    form.Opens init inner := by
  unfold StmtForm.withoutInit at h
  split at h <;> cases h <;> constructor

namespace Lowering

theorem bind_eq_ok {α β : Type} {m} {f : α → LowerM β} {s s' b} (h : (m >>= f) s = .ok (b, s')) :
    ∃ a s1, m s = .ok (a, s1) ∧ f a s1 = .ok (b, s') := by
  simp only [Bind.bind, StateT.bind, Except.bind] at h
  cases hm : m s with
  | error r => simp [hm] at h
  | ok p => exact ⟨p.1, p.2, rfl, by simpa [hm] using h⟩

/-! ## Rules that need a place -/

section Places

variable {env : Env} {stmt : Stmt} {s : State} {halt : Halt → Prop}

/-- The initializer of the statement is moved out of its header. -/
def Env.hoists (env : Env) (stmt : Stmt) : Bool :=
  match stmt.form with
  | .cond (some init) test _ _ => env.readsElement stmt.span test || env.needsSplice init
  | .switch (some init) tag _ => tag.any (env.readsElement stmt.span) || env.needsSplice init
  | .loop (some init) _ _ _ => env.needsSplice init
  | _ => false

/-- The post statement of the loop is lowered for itself. -/
def Env.splitsPost (env : Env) (stmt : Stmt) : Bool :=
  match stmt.form with
  | .loop _ _ (some post) _ => env.needsDeclarations post
  | _ => false

/-- The values of the declaration become an assignment. -/
def Env.splitsDecl (env : Env) (stmt : Stmt) : Bool :=
  match stmt.form with
  | .decl ⟨.var, [.value names _ [value]], _⟩ =>
    1 < names.length || env.isElement stmt.span value
  | _ => false

/-- No rule applies at the statement: the walk goes into its parts. -/
structure Env.Quiet (env : Env) (stmt : Stmt) : Prop where
  idle : env.Idle stmt
  hoists : env.hoists stmt = false
  splitsPost : env.splitsPost stmt = false
  splitsDecl : env.splitsDecl stmt = false

theorem ensures_hoistInit :
    Ensures (hoistInit env stmt) (fun r s' => match r with
      | none => s' = s ∧ env.hoists stmt = false
      | some block => ∃ init inner, stmt.form.withoutInit = some (init, inner) ∧
        block = ⟨s.nextId, stmt.span, .block ⟨[init, ⟨stmt.id, stmt.span, inner⟩], stmt.span⟩⟩ ∧
        s' = { s with nextId := s.nextId + 1 }) halt s := by
  unfold hoistInit
  split
  · rename_i init test body otherwise hform
    split
    · exact ⟨init, _, by rw [hform]; rfl, rfl, rfl⟩
    · rename_i hhoists
      exact ⟨rfl, by simpa [Env.hoists, hform] using hhoists⟩
  · rename_i init tag clauses hform
    split
    · exact ⟨init, _, by rw [hform]; rfl, rfl, rfl⟩
    · rename_i hhoists
      refine ⟨rfl, ?_⟩
      simpa only [Env.hoists, hform, Bool.not_eq_true] using hhoists
  · rename_i init test post body hform
    split
    · exact ⟨init, _, by rw [hform]; rfl, rfl, rfl⟩
    · rename_i hhoists
      exact ⟨rfl, by simpa [Env.hoists, hform] using hhoists⟩
  · rename_i hcond hswitch hloop
    refine ⟨rfl, ?_⟩
    unfold Env.hoists
    split
    · exact absurd ‹_› (hcond _ _ _ _)
    · exact absurd ‹_› (hswitch _ _ _)
    · exact absurd ‹_› (hloop _ _ _ _)
    · rfl

/-- Variables that are found one after the other, without touching the state. -/
theorem ensures_mapM {f : Name × Nat → LowerM Var} {l : List (Name × Nat)}
    (h : ∀ a ∈ l, ∀ s, Ensures (f a) (fun var s' => s' = s ∧ var.1 = a.1.val) halt s) :
    Ensures (l.mapM f) (fun vars s' => s' = s ∧ vars.map Prod.fst = l.map (·.1.val)) halt s := by
  induction l with
  | nil => exact ⟨rfl, rfl⟩
  | cons a l ih =>
    obtain ⟨ha, hl⟩ := forall_mem_cons.1 h
    rw [mapM_cons, ensures_bind]
    refine (ha s).imp ?_
    rintro var s1 ⟨rfl, hvar⟩
    refine (ih hl).bind ?_
    rintro vars s2 ⟨rfl, hvars⟩
    exact ⟨rfl, by rw [map_cons, map_cons, hvar, hvars]⟩

/-- The variables of a divided declaration are those with a name to refer to. -/
theorem ensures_splitVars {names : List Name} (type : Option (Located TypeExpr)) (value : Expr)
    (place : Span) (hhalt : ∀ name ∈ names, Halts name.span halt) :
    Ensures (splitVars env names type value place) (fun vars s' => s' = s ∧
      (vars.map Prod.fst).Sublist (names.map (·.val))) halt s := by
  refine (ensures_mapM fun entry hentry s => ?_).imp ?_
  · cases type with
    | some type => exact ⟨rfl, rfl⟩
    | none =>
      have hname := mem_zipIdx' (mem_filter.1 hentry).1
      simp only [ensures_bind, ensures_requireType]
      split
      · exact ⟨rfl, rfl⟩
      · exact hhalt _ (hname.2 ▸ getElem_mem _) _ rfl rfl
  · rintro vars _ ⟨rfl, hvars⟩
    have hall : names.zipIdx.map (fun entry => entry.1.val) = names.map (·.val) := by
      rw [← congrArg (map (·.val)) (zipIdx_map_fst 0 names), map_map]
      rfl
    exact ⟨rfl, hvars ▸ hall ▸ filter_sublist.map _⟩

/-- What stays of a declaration at `place` whose value moves: variables of its names. -/
def Divided (names : List Name) (place : Span) (form : StmtForm) : Prop :=
  form = .empty ∨ ∃ vars, (vars.map Prod.fst).Sublist (names.map (·.val)) ∧
    form = .decl (varDecl vars place)

theorem ensures_splitVarDecl :
    Ensures (splitVarDecl env stmt) (fun r s' => match r with
      | none => s' = s ∧ env.splitsDecl stmt = false
      | some stmts => ∃ names type value span form,
        stmt.form = .decl ⟨.var, [.value names type [value]], span⟩ ∧
        Divided names stmt.span form ∧
        stmts = [⟨stmt.id, stmt.span, form⟩, ⟨s.nextId, stmt.span,
          .assign (names.map fun name => .ident name.span name.val) .assign [value]⟩] ∧
        s' = { s with nextId := s.nextId + 1 }) (Halt.IsOf stmt) s := by
  unfold splitVarDecl
  split
  · rename_i names type value span hform
    split
    · rename_i hsplits
      refine ⟨rfl, ?_⟩
      simp only [Bool.and_eq_true, decide_eq_true_eq, Bool.not_eq_true'] at hsplits
      simp only [Env.splitsDecl, hform, hsplits.2, Bool.or_false, decide_eq_false_iff_not]
      omega
    · have hnames (norm : Norm) (h : stmt.Fits norm) : ∀ name ∈ names, norm.span name.span := by
        have hform' := ((Stmt.fits_iff stmt).1 h).2
        rw [hform] at hform'
        exact hform'.2.1.1
      refine (ensures_splitVars type value stmt.span fun name hname =>
        halts_of_fits fun norm h => hnames norm h name hname).bind ?_
      rintro vars s1 ⟨rfl, hvars⟩
      rw [ensures_bind, ensures_newStmt]
      refine ⟨names, type, value, span, _, hform, ?_, rfl, rfl⟩
      split
      · exact .inl rfl
      · exact .inr ⟨vars, hvars, rfl⟩
  · rename_i hform
    refine ⟨rfl, ?_⟩
    unfold Env.splitsDecl
    split
    · exact absurd ‹_› (hform _ _ _ _)
    · rfl

end Places

/-! ## Returns -/

/-- The statement stores the value of `store` through its output parameter. -/
def Stores (span : Span) (store : String × Expr) (stmt : Stmt) : Prop :=
  stmt.span = span ∧ stmt.form =
    .assign [.unary store.2.span .deref (.ident store.2.span store.1)] .assign [store.2]

/-- The values that move, with their output parameters. -/
def ReturnPlan.moved (plan : ReturnPlan) (values : List Expr) : List (String × Expr) :=
  plan.outs.filterMap fun out => values[out.1]?.map fun value => (out.2, value)

/-- The variables that stand in for named results, with their output parameters, the last result
first. -/
def ReturnPlan.movedNames (plan : ReturnPlan) (span : Span) : List (String × Expr) :=
  plan.named.reverse.map fun named => (named.1, .ident span named.2)

/-- Note that a return follows its plan. -/
def State.settle (s : State) (id : NodeId) : State := { s with settled := id :: s.settled }

/-- What a return that follows its plan becomes. -/
inductive Settles (env : Env) (plan : ReturnPlan) (stmt : Stmt) (s : State) :
    List Stmt → State → Prop
  | values {values stores n} : stmt.form = .ret values → values.length = plan.total →
    Forall₂ (Stores stmt.span) (plan.moved values) stores →
    Issues s stores { s with nextId := n } →
    Settles env plan stmt s (stores ++
      [⟨stmt.id, stmt.span, .ret (values.take (if plan.keepsFirst then 1 else 0))⟩])
      { s.settle stmt.id with nextId := n }
  | names {stores n} : stmt.form = .ret [] → plan.total ≠ 0 → plan.named ≠ [] →
    Forall₂ (Stores stmt.span) (plan.movedNames stmt.span) stores →
    Issues s stores { s with nextId := n } →
    Settles env plan stmt s (stores ++ [⟨stmt.id, stmt.span, .ret []⟩])
      { s.settle stmt.id with nextId := n }
  | call {span callee args spread shape outs} : stmt.form = .ret [.call span callee args spread] →
    plan.total ≠ 1 → (callee.name?.bind fun name => env.shapes.lookup name) = some shape →
    plan.forwarded? shape = some outs → plan.keepsFirst = true →
    Settles env plan stmt s [⟨stmt.id, stmt.span,
      .ret [.call span callee (args ++ outs.map (.ident stmt.span)) spread]⟩] (s.settle stmt.id)
  | callOnly {span callee args spread shape outs} :
    stmt.form = .ret [.call span callee args spread] → plan.total ≠ 1 →
    (callee.name?.bind fun name => env.shapes.lookup name) = some shape →
    plan.forwarded? shape = some outs → plan.keepsFirst = false →
    Settles env plan stmt s [⟨s.nextId, stmt.span,
      .expr (.call span callee (args ++ outs.map (.ident stmt.span)) spread)⟩,
      ⟨stmt.id, stmt.span, .ret []⟩] { s.settle stmt.id with nextId := s.nextId + 1 }

/-- The statements that a step leaves, in order. -/
def Step.stmts : Step → List Stmt
  | .revisit stmts => stmts
  | .enter stmt rest => stmt :: rest

section Returns

variable {env : Env} {plan : ReturnPlan} {stmt : Stmt} {s : State} {halt : Halt → Prop}

theorem ensures_storeValues (span : Span) (values : List Expr) (outs : List (Nat × String)) :
    Ensures (storeValues span values outs)
      (fun stores s' => Forall₂ (Stores span)
        (outs.filterMap fun out => values[out.1]?.map fun value => (out.2, value)) stores ∧
        ∃ n, s' = { s with nextId := n } ∧ Issues s stores s') halt s := by
  induction outs generalizing s with
  | nil => exact ⟨.nil, _, rfl, .refl s⟩
  | cons out outs ih =>
    unfold storeValues
    split
    · rename_i hnone
      simpa [hnone] using ih
    · rename_i value hvalue
      simp only [storeOut, ensures_bind, ensures_newStmt, filterMap_cons, hvalue,
        Option.map_some]
      refine ih.imp ?_
      rintro stores _ ⟨hstores, n, rfl, hissues⟩
      exact ⟨.cons ⟨rfl, rfl⟩ hstores, n, rfl, (Issues.one rfl).trans hissues⟩

theorem ensures_storeNamed (span : Span) (named : List (String × String)) :
    Ensures (storeNamed span named)
      (fun stores s' => Forall₂ (Stores span)
        (named.reverse.map fun named => (named.1, .ident span named.2)) stores ∧
        ∃ n, s' = { s with nextId := n } ∧ Issues s stores s') halt s := by
  induction named generalizing s with
  | nil => exact ⟨.nil, _, rfl, .refl s⟩
  | cons pair named ih =>
    unfold storeNamed
    simp only [storeOut, ensures_bind, ensures_newStmt, reverse_cons, map_append,
      map_cons, map_nil]
    refine ih.imp ?_
    rintro stores _ ⟨hstores, n, rfl, hissues⟩
    exact ⟨rel_append hstores (.cons ⟨rfl, rfl⟩ .nil), n, rfl,
      ((Issues.one rfl).trans hissues).swap⟩

/-- A return is left alone, or it is settled for the first time. A new one is left alone only when
it neither has all values nor stands for named results. -/
theorem ensures_lowerReturn :
    Ensures (lowerReturn env plan stmt) (fun r s' =>
      (r = none → s' = s ∧ (stmt.id ∉ s.settled → ∀ values, stmt.form = .ret values →
        values.length ≠ plan.total ∧ (values = [] → plan.named = []))) ∧
      ∀ step ∈ r, stmt.id ∉ s.settled ∧ Settles env plan stmt s step.stmts s')
      halt s := by
  unfold lowerReturn
  split
  · rename_i values hform
    rw [ensures_bind, ensures_get]
    split
    · rename_i hsettled
      have hsettled : stmt.id ∈ s.settled := by simpa using hsettled
      exact ⟨fun _ => ⟨rfl, fun h => absurd hsettled h⟩, by simp⟩
    · rename_i hfresh
      have hfresh : stmt.id ∉ s.settled := by simpa using hfresh
      split
      · rename_i htotal
        refine (ensures_storeValues stmt.span values plan.outs).bind ?_
        rintro stores _ ⟨hstores, n, rfl, hissues⟩
        refine ⟨by simp, ?_⟩
        rintro _ ⟨⟩
        exact ⟨hfresh, .values hform htotal hstores hissues⟩
      · rename_i htotal
        split
        · rename_i hnamed
          simp only [Bool.and_eq_true, List.isEmpty_iff, Bool.not_eq_true',
            isEmpty_eq_false_iff] at hnamed
          obtain ⟨rfl, hnamed⟩ := hnamed
          refine (ensures_storeNamed stmt.span plan.named).bind ?_
          rintro stores _ ⟨hstores, n, rfl, hissues⟩
          refine ⟨by simp, ?_⟩
          rintro _ ⟨⟩
          exact ⟨hfresh, .names hform (Ne.symm htotal) hnamed hstores hissues⟩
        · rename_i hnamed
          have hnone : stmt.id ∉ s.settled → ∀ values', stmt.form = .ret values' →
              values'.length ≠ plan.total ∧ (values' = [] → plan.named = []) := by
            intro _ values' hform'
            rw [hform] at hform'
            obtain rfl := StmtForm.ret.inj hform'
            exact ⟨htotal, by simpa using hnamed⟩
          split
          · rename_i span callee args spread _ _
            have htotal : plan.total ≠ 1 := Ne.symm htotal
            split
            · rename_i shape hshape
              split
              · rename_i outs houts
                rw [ensures_bind]
                split
                · rename_i hkeeps
                  refine ⟨by simp, ?_⟩
                  rintro _ ⟨⟩
                  exact ⟨hfresh, .call hform htotal hshape houts hkeeps⟩
                · rename_i hkeeps
                  refine ⟨by simp, ?_⟩
                  rintro _ ⟨⟩
                  exact ⟨hfresh, .callOnly hform htotal hshape houts (by simpa using hkeeps)⟩
              · exact ⟨fun _ => ⟨rfl, hnone⟩, by simp⟩
            · exact ⟨fun _ => ⟨rfl, hnone⟩, by simp⟩
          · exact ⟨fun _ => ⟨rfl, hnone⟩, by simp⟩
  · rename_i hform
    exact ⟨fun _ => ⟨rfl, fun _ values hret => absurd hret (hform values)⟩, by simp⟩

end Returns

/-! ## The relation -/

/-- How a statement that holds no statements is lowered, when `lowerBody` lowers the bodies of its
function literals. -/
inductive LowersPlain (env : Env) (lowerBody : SequenceLowering) :
    StmtForm → StmtForm → State → State → Prop
  | decl {keyword specs specs' span s s'} : lowerSpecs env lowerBody specs s = .ok (specs', s') →
    LowersPlain env lowerBody (.decl ⟨keyword, specs, span⟩) (.decl ⟨keyword, specs', span⟩) s s'
  | expr {e e' s s'} : lowerExpr env lowerBody e s = .ok (e', s') →
    LowersPlain env lowerBody (.expr e) (.expr e') s s'
  | incDec {e e' increments s s'} : lowerExpr env lowerBody e s = .ok (e', s') →
    LowersPlain env lowerBody (.incDec e increments) (.incDec e' increments) s s'
  | assign {targets targets' op values values' s s₁ s'} : op ≠ .andNot →
    lowerExprs env lowerBody targets s = .ok (targets', s₁) →
    lowerExprs env lowerBody values s₁ = .ok (values', s') →
    LowersPlain env lowerBody (.assign targets op values) (.assign targets' op values') s s'
  | andNot {targets targets' values values' s s₁ s'} :
    lowerExprs env lowerBody targets s = .ok (targets', s₁) →
    lowerExprs env lowerBody values s₁ = .ok (values', s') →
    LowersPlain env lowerBody (.assign targets .andNot values)
      (.assign targets' .bitAnd (values'.map fun value => complement value.span value)) s s'
  | ret {values values' s s'} : lowerExprs env lowerBody values s = .ok (values', s') →
    LowersPlain env lowerBody (.ret values) (.ret values') s s'
  | empty {s} : LowersPlain env lowerBody .empty .empty s s
  | jump {jump label s} : LowersPlain env lowerBody (.jump jump label) (.jump jump label) s s

/-- What the walk is given, together with what it leaves: a sequence, statements that are entered
one after the other, a statement that is entered, the initializer or post statement of a header,
what follows an `else`, the arms of a switch, or the bodies of function literals. -/
inductive Task where
  | seq (plan : Option ReturnPlan) (stmts out : List Stmt)
  | each (plan : Option ReturnPlan) (stmts out : List Stmt)
  | stmt (plan : Option ReturnPlan) (stmt out : Stmt)
  | header (plan : Option ReturnPlan) (stmt out : Option Stmt)
  | branch (plan : Option ReturnPlan) (stmt out : Option Stmt)
  | arms (plan : Option ReturnPlan) (clauses out : List CaseClause)
  | bodies (bodies out : List (List Stmt))

/-- The walk does the task, and takes the first state to the second. -/
inductive Walks (env : Env) : Task → State → State → Prop
  | nil {plan s} : Walks env (.seq plan [] []) s s
  /-- The initializer of a header moves in front of it, into a block of its own. -/
  | hoist {plan stmt rest out init inner s s'} :
    stmt.ownViolations = [] → stmt.form.withoutInit = some (init, inner) →
    Walks env (.seq plan (⟨s.nextId, stmt.span,
      .block ⟨[init, ⟨stmt.id, stmt.span, inner⟩], stmt.span⟩⟩ :: rest) out)
      { s with nextId := s.nextId + 1 } s' →
    Walks env (.seq plan (stmt :: rest) out) s s'
  /-- The declarations that a post statement needs move in front of its loop. -/
  | post {plan stmt rest out init test post post' body posts decls s s₁ s'} :
    stmt.ownViolations = [] → stmt.form = .loop init test (some post) body →
    env.needsDeclarations post = true → Walks env (.seq plan [post] posts) s s₁ →
    posts.partition (fun x => x.id == post.id) = ([post'], decls) →
    (∀ x ∈ decls, isDeclaration x) →
    Walks env (.seq plan (decls ++ ⟨stmt.id, stmt.span, .loop init test (some post') body⟩ ::
      rest) out) s₁ s' →
    Walks env (.seq plan (stmt :: rest) out) s s'
  /-- The value of a declaration is assigned behind it. -/
  | split {plan stmt rest out names type value span form s s'} :
    stmt.ownViolations = [] → stmt.form = .decl ⟨.var, [.value names type [value]], span⟩ →
    Divided names stmt.span form →
    Walks env (.seq plan (⟨stmt.id, stmt.span, form⟩ :: ⟨s.nextId, stmt.span,
      .assign (names.map fun name => .ident name.span name.val) .assign [value]⟩ :: rest) out)
      { s with nextId := s.nextId + 1 } s' →
    Walks env (.seq plan (stmt :: rest) out) s s'
  /-- A rule leaves something else in the place of the statement. -/
  | replace {plan stmt rest out r s s₁ s'} :
    stmt.ownViolations = [] → Rewrites env stmt r → Effects env stmt r s s₁ →
    Walks env (.seq plan (r.before ++ ⟨stmt.id, stmt.span, r.form⟩ :: rest) out) s₁ s' →
    Walks env (.seq plan (stmt :: rest) out) s s'
  /-- A return follows the plan of its function. -/
  | settle {plan stmt rest new new' out s s₁ s₂ s'} :
    stmt.ownViolations = [] → env.Idle stmt → stmt.id ∉ s.settled →
    Settles env plan stmt s new s₁ → Walks env (.each (some plan) new new') s₁ s₂ →
    Walks env (.seq (some plan) rest out) s₂ s' →
    Walks env (.seq (some plan) (stmt :: rest) (new' ++ out)) s s'
  /-- No rule applies. -/
  | enter {plan stmt stmt' rest out s s₁ s'} :
    stmt.ownViolations = [] → env.Quiet stmt →
    (∀ p ∈ plan, lowerReturn env p stmt s = .ok (none, s)) →
    Walks env (.stmt plan stmt stmt') s s₁ → Walks env (.seq plan rest out) s₁ s' →
    Walks env (.seq plan (stmt :: rest) (stmt' :: out)) s s'
  | eachNil {plan s} : Walks env (.each plan [] []) s s
  | eachCons {plan stmt stmt' rest out s s₁ s'} :
    env.Quiet stmt → Walks env (.stmt plan stmt stmt') s s₁ →
    Walks env (.each plan rest out) s₁ s' →
    Walks env (.each plan (stmt :: rest) (stmt' :: out)) s s'
  | plain {plan id span form form' s s'} (fuel : Nat) :
    LowersPlain env (lowerSeq fuel ⟨env, none⟩) form form' s s' →
    Walks env (.bodies form.bodies form'.bodies) s s' →
    Walks env (.stmt plan ⟨id, span, form⟩ ⟨id, span, form'⟩) s s'
  | block {plan id span stmts out place s s'} : Walks env (.seq plan stmts out) s s' →
    Walks env (.stmt plan ⟨id, span, .block ⟨stmts, place⟩⟩ ⟨id, span, .block ⟨out, place⟩⟩) s s'
  | cond {plan id span init init' test test' stmts out place otherwise otherwise' fuel
      s s₁ s₂ s₃ s'} :
    Walks env (.header plan init init') s s₁ →
    lowerExpr env (lowerSeq fuel ⟨env, none⟩) test s₁ = .ok (test', s₂) →
    Walks env (.bodies test.bodies test'.bodies) s₁ s₂ → Walks env (.seq plan stmts out) s₂ s₃ →
    Walks env (.branch plan otherwise otherwise') s₃ s' →
    Walks env (.stmt plan ⟨id, span, .cond init test ⟨stmts, place⟩ otherwise⟩
      ⟨id, span, .cond init' test' ⟨out, place⟩ otherwise'⟩) s s'
  | switch {plan id span init init' tag tag' clauses out fuel s s₁ s₂ s'} :
    Walks env (.header plan init init') s s₁ →
    lowerExpr? env (lowerSeq fuel ⟨env, none⟩) tag s₁ = .ok (tag', s₂) →
    Walks env (.bodies (bodiesOfExpr? tag) (bodiesOfExpr? tag')) s₁ s₂ →
    Walks env (.arms plan clauses out) s₂ s' →
    Walks env (.stmt plan ⟨id, span, .switch init tag clauses⟩
      ⟨id, span, .switch init' tag' out⟩) s s'
  | loop {plan id span init init' test test' post post' stmts out place fuel s s₁ s₂ s₃ s'} :
    Walks env (.header plan init init') s s₁ →
    lowerExpr? env (lowerSeq fuel ⟨env, none⟩) test s₁ = .ok (test', s₂) →
    Walks env (.bodies (bodiesOfExpr? test) (bodiesOfExpr? test')) s₁ s₂ →
    Walks env (.header plan post post') s₂ s₃ → Walks env (.seq plan stmts out) s₃ s' →
    Walks env (.stmt plan ⟨id, span, .loop init test post ⟨stmts, place⟩⟩
      ⟨id, span, .loop init' test' post' ⟨out, place⟩⟩) s s'
  | range {plan id span key key' value value' defines subject subject' stmts out place fuel
      s s₁ s₂ s₃ s'} :
    lowerExpr? env (lowerSeq fuel ⟨env, none⟩) key s = .ok (key', s₁) →
    lowerExpr? env (lowerSeq fuel ⟨env, none⟩) value s₁ = .ok (value', s₂) →
    lowerExpr env (lowerSeq fuel ⟨env, none⟩) subject s₂ = .ok (subject', s₃) →
    Walks env (.bodies (bodiesOfExpr? key ++ bodiesOfExpr? value ++ subject.bodies)
      (bodiesOfExpr? key' ++ bodiesOfExpr? value' ++ subject'.bodies)) s s₃ →
    Walks env (.seq plan stmts out) s₃ s' →
    Walks env (.stmt plan ⟨id, span, .range key value defines subject ⟨stmts, place⟩⟩
      ⟨id, span, .range key' value' defines subject' ⟨out, place⟩⟩) s s'
  | noHeader {plan s} : Walks env (.header plan none none) s s
  | header {plan stmt stmt' s s'} : stmt.ownViolations = [] → env.Idle stmt →
    Walks env (.stmt plan stmt stmt') s s' →
    Walks env (.header plan (some stmt) (some stmt')) s s'
  /-- A rule applies that puts nothing in front. -/
  | inPlace {plan stmt stmt' form s s₁ s'} : stmt.ownViolations = [] →
    Rewrites env stmt ⟨[], form⟩ → Effects env stmt ⟨[], form⟩ s s₁ →
    Walks env (.stmt plan ⟨stmt.id, stmt.span, form⟩ stmt') s₁ s' →
    Walks env (.header plan (some stmt) (some stmt')) s s'
  | noBranch {plan s} : Walks env (.branch plan none none) s s
  | branch {plan stmt stmt' s s'} : stmt.ownViolations = [] →
    (∀ init test body otherwise, stmt.form = .cond init test body otherwise →
      init.any env.needsSplice = false ∧ env.readsElement stmt.span test = false) →
    Walks env (.stmt plan stmt stmt') s s' →
    Walks env (.branch plan (some stmt) (some stmt')) s s'
  /-- A condition that has to be a member of a sequence goes into a block of its own. -/
  | wrap {plan stmt stmt' init test body otherwise s s'} :
    stmt.form = .cond init test body otherwise →
    Walks env (.stmt plan ⟨s.nextId, stmt.span, .block ⟨[stmt], stmt.span⟩⟩ stmt')
      { s with nextId := s.nextId + 1 } s' →
    Walks env (.branch plan (some stmt) (some stmt')) s s'
  | armsNil {plan s} : Walks env (.arms plan [] []) s s
  | armsCons {plan exprs exprs' stmts out span clauses clauses' fuel s s₁ s₂ s'} :
    lowerLabel env (lowerSeq fuel ⟨env, none⟩) exprs s = .ok (exprs', s₁) →
    Walks env (.bodies (bodiesOfExprs (exprs.getD [])) (bodiesOfExprs (exprs'.getD []))) s s₁ →
    Walks env (.seq plan stmts out) s₁ s₂ → Walks env (.arms plan clauses clauses') s₂ s' →
    Walks env (.arms plan (⟨exprs, stmts, span⟩ :: clauses) (⟨exprs', out, span⟩ :: clauses')) s s'
  | bodiesNil {s} : Walks env (.bodies [] []) s s
  | bodiesCons {stmts out bodies bodies' s s₁ s'} : Walks env (.seq none stmts out) s s₁ →
    Walks env (.bodies bodies bodies') s₁ s' →
    Walks env (.bodies (stmts :: bodies) (out :: bodies')) s s'

/-! ## What a run does to the state -/

section State

variable {env : Env} {task : Task} {s s' : State}

theorem Settles.grows {plan stmt new} (h : Settles env plan stmt s new s') :
    s.nextId ≤ s'.nextId ∧ s'.settled = stmt.id :: s.settled := by
  cases h with
  | values _ _ _ hissues | names _ _ _ _ hissues =>
    exact ⟨hissues.nextId, rfl⟩
  | call => exact ⟨Nat.le_refl _, rfl⟩
  | callOnly => exact ⟨Nat.le_succ _, rfl⟩

/-- Identities are only given out, and what is settled stays settled. -/
theorem Walks.grows (h : Walks env task s s') : s.nextId ≤ s'.nextId ∧ s.settled ⊆ s'.settled := by
  induction h with
  | nil | eachNil | noHeader | noBranch | armsNil | bodiesNil =>
    exact ⟨Nat.le_refl _, Subset.refl _⟩
  | hoist _ _ _ ih | split _ _ _ _ ih | wrap _ _ ih =>
    exact ⟨Nat.le_trans (Nat.le_succ _) ih.1, ih.2⟩
  | replace _ _ hissues _ ih | inPlace _ _ hissues _ ih =>
    exact ⟨Nat.le_trans hissues.nextId ih.1, hissues.settled ▸ ih.2⟩
  | settle _ _ _ hsettles _ _ ih ih' =>
    obtain ⟨hnext, hsettled⟩ := hsettles.grows
    refine ⟨Nat.le_trans hnext (Nat.le_trans ih.1 ih'.1), ?_⟩
    intro id hid
    exact ih'.2 (ih.2 (hsettled ▸ mem_cons_of_mem _ hid))
  | plain _ _ _ ih | block _ ih | header _ _ _ ih | branch _ _ _ ih => exact ih
  | post _ _ _ _ _ _ _ ih ih' | enter _ _ _ _ _ ih ih' | eachCons _ _ _ ih ih'
  | range _ _ _ _ _ ih ih' | bodiesCons _ _ ih ih' =>
    exact ⟨Nat.le_trans ih.1 ih'.1, Subset.trans ih.2 ih'.2⟩
  | switch _ _ _ _ ih1 ih2 ih3 | armsCons _ _ _ _ ih1 ih2 ih3 =>
    exact ⟨Nat.le_trans ih1.1 (Nat.le_trans ih2.1 ih3.1),
      Subset.trans ih1.2 (Subset.trans ih2.2 ih3.2)⟩
  | cond _ _ _ _ _ ih1 ih2 ih3 ih4 | loop _ _ _ _ _ ih1 ih2 ih3 ih4 =>
    exact ⟨Nat.le_trans ih1.1 (Nat.le_trans ih2.1 (Nat.le_trans ih3.1 ih4.1)),
      Subset.trans ih1.2 (Subset.trans ih2.2 (Subset.trans ih3.2 ih4.2))⟩

end State

/-! ## Statements that are left alone -/

theorem forall₂_exists_right {α β : Type} {R} {l : List α} {l'} (h : Forall₂ R l l') {b : β}
    (hb : b ∈ l') : ∃ a ∈ l, R a b := by
  induction h with
  | nil => simp at hb
  | cons hab _ ih =>
    rcases mem_cons.1 hb with rfl | hb
    · exact ⟨_, mem_cons_self, hab⟩
    · obtain ⟨a, ha, hr⟩ := ih hb
      exact ⟨a, mem_cons_of_mem _ ha, hr⟩

section Quiet

variable {env : Env} {plan : ReturnPlan} {stmt : Stmt} {s s' : State}

theorem hoistInit_eq_none (h : env.hoists stmt = false) : hoistInit env stmt = pure none := by
  unfold hoistInit
  unfold Env.hoists at h
  split <;> simp_all

theorem splitVarDecl_eq_none (h : env.splitsDecl stmt = false) :
    splitVarDecl env stmt = pure none := by
  unfold splitVarDecl
  unfold Env.splitsDecl at h
  split
  · rename_i names type value span hform
    simp only [hform, Bool.or_eq_false_iff, decide_eq_false_iff_not] at h
    have hlen : names.length ≤ 1 := by omega
    simp [h.2, hlen]
  · rfl

theorem readElement_eq_none (h : env.Idle stmt) (declared : List String) :
    readElement env declared stmt = pure none := by
  unfold readElement
  split
  · rename_i targets op span base key hform
    split
    · rfl
    · rename_i hop
      have hop : op.combines? = none := by simpa using hop
      have hread : env.isElement stmt.span (.index span base key) = false := by
        have hhoist := extractForm_eq_none.1 (h.hoist "")
        apply hhoist
        simp [hform, StmtForm.evaluated, surfaceOfExprs, Expr.mem_surface_self]
      split
      · simp [readInto, hread]
      · exact absurd rfl (h.read _ _ _ _ _ hform hop)
      · rfl
  · rfl

/-- Where no rule applies, nothing happens. -/
theorem replaceStmt_of_idle (h : env.Idle stmt) (declared : List String) :
    replaceStmt env declared stmt = pure none := by
  have hdefine : splitDefinition env declared stmt = pure none := by
    unfold splitDefinition
    split
    · rename_i targets value hform
      simp [h.define targets value hform]
    · rfl
  have hcomplete : completeCall env stmt = pure none := by
    unfold completeCall
    split
    · rename_i targets span callee args spread hform
      simp [h.complete targets span callee args spread hform]
    · rfl
  have hupdate : updateElement env stmt = pure none := by
    unfold updateElement
    rw [h.update]
  have hhoist : hoistRead env stmt = pure none := by
    funext s
    simp only [hoistRead, h.hoist]
    rfl
  simp [replaceStmt, h.write, orTry, readElement_eq_none h, hdefine, hcomplete, hupdate, hhoist]

theorem stepAt_eq_stepOf {frame} (hhoists : frame.env.hoists stmt = false)
    (hpost : frame.env.splitsPost stmt = false) (fuel : Nat) (declared : List String) :
    stepAt (fuel + 1) frame declared stmt = stepOf frame declared stmt := by
  unfold stepAt
  rw [hoistInit_eq_none hhoists, pure_bind]
  unfold Env.splitsPost at hpost
  dsimp only
  split
  · rename_i hform
    rw [hform] at hpost
    rw [if_neg (by simp [hpost])]
  · rfl

/-- The walk enters a quiet statement, unless it is a return that has to follow the plan. -/
theorem stepAt_of_quiet {plan} (h : env.Quiet stmt)
    (hplan : ∀ p ∈ plan, lowerReturn env p stmt s = .ok (none, s)) (fuel : Nat)
    (declared : List String) :
    stepAt (fuel + 1) ⟨env, plan⟩ declared stmt s = .ok (.enter stmt [], s) := by
  rw [stepAt_eq_stepOf h.hoists h.splitsPost]
  unfold stepOf
  rw [splitVarDecl_eq_none h.splitsDecl, pure_bind]
  rw [replaceStmt_of_idle h.idle, pure_bind]
  cases plan with
  | none => rfl
  | some plan =>
    simp only [Bind.bind, StateT.bind, Except.bind, hplan plan rfl]
    rfl

theorem isElement_eq_false {place e} (h : ∀ span base key, e ≠ .index span base key) :
    env.isElement place e = false := by
  by_contra helement
  obtain ⟨span, base, key, rfl⟩ := index_of_isElement (by simpa using helement)
  exact h span base key rfl

theorem quiet_ret {id span values} (h : ∀ x ∈ surfaceOfExprs values, env.isElement span x = false) :
    env.Quiet ⟨id, span, .ret values⟩ where
  idle := ⟨⟨rfl, nofun, nofun, nofun, rfl⟩, fun _ => extractForm_eq_none.2 h⟩
  hoists := rfl
  splitsPost := rfl
  splitsDecl := rfl

theorem quiet_expr {id span e} (h : ∀ x ∈ e.surface, env.isElement span x = false) :
    env.Quiet ⟨id, span, .expr e⟩ where
  idle := ⟨⟨rfl, nofun, nofun, nofun, rfl⟩, fun _ => extractForm_eq_none.2 h⟩
  hoists := rfl
  splitsPost := rfl
  splitsDecl := rfl

theorem quiet_store {span store} (hx : Stores span store x)
    (h : ∀ y ∈ store.2.surface, env.isElement span y = false) : env.Quiet x := by
  obtain ⟨id, span', form⟩ := x
  obtain ⟨rfl, rfl⟩ := hx
  refine ⟨⟨⟨rfl, ?_, by simp, ?_, rfl⟩, fun _ => extractForm_eq_none.2 ?_⟩, rfl, rfl, rfl⟩
  · intro targets op place base key hform _
    obtain ⟨rfl, -⟩ := StmtForm.assign.inj hform
    simp
  · intro targets place callee args spread hform
    obtain ⟨rfl, -⟩ := StmtForm.assign.inj hform
    simp
  · intro y hy
    simp only [StmtForm.evaluated, flatMap_cons, flatMap_nil, targetSurface,
      Expr.surface, surfaceOfExprs, append_nil, mem_append, mem_cons,
      not_mem_nil, or_false] at hy
    rcases hy with (rfl | rfl) | hy
    · exact isElement_eq_false (by simp)
    · exact isElement_eq_false (by simp)
    · exact h y hy

theorem surface_forwarded {span place callee args spread} (outs : List String)
    (h : ∀ x ∈ (Expr.call span callee args spread).surface, env.isElement place x = false) :
    ∀ x ∈ (Expr.call span callee (args ++ outs.map (.ident place)) spread).surface,
      env.isElement place x = false := by
  intro x hx
  unfold Expr.surface at h hx
  simp only [mem_cons, mem_append, mem_surfaceOfExprs, mem_map] at h hx
  rcases hx with rfl | hx | ⟨e, he | ⟨out, -, rfl⟩, hx⟩
  · exact isElement_eq_false (by simp)
  · exact h x (.inr (.inl hx))
  · exact h x (.inr (.inr ⟨e, he, hx⟩))
  · simp only [Expr.surface, mem_singleton] at hx
    subst hx
    exact isElement_eq_false (by simp)

/-- What a return becomes holds no element, when the return held none. -/
theorem Settles.quiet {new : List Stmt} (h : Settles env plan stmt s new s')
    (hidle : env.Idle stmt) : ∀ x ∈ new, env.Quiet x := by
  have hread := extractForm_eq_none.1 (hidle.hoist "")
  cases h with
  | values hform hlen hstores =>
    rw [hform] at hread
    intro x hx
    rcases mem_append.1 hx with hx | hx
    · obtain ⟨store, hstore, hx⟩ := forall₂_exists_right hstores hx
      refine quiet_store hx ?_
      intro y hy
      obtain ⟨out, -, hout⟩ := mem_filterMap.1 hstore
      obtain ⟨value, hvalue, rfl⟩ := Option.map_eq_some_iff.1 hout
      exact hread y (mem_surfaceOfExprs.2 ⟨value, mem_of_getElem? hvalue, hy⟩)
    · obtain rfl := mem_singleton.1 hx
      refine quiet_ret ?_
      intro y hy
      obtain ⟨e, he, hy⟩ := mem_surfaceOfExprs.1 hy
      exact hread y (mem_surfaceOfExprs.2 ⟨e, mem_of_mem_take he, hy⟩)
  | names hform _ _ hstores =>
    intro x hx
    rcases mem_append.1 hx with hx | hx
    · obtain ⟨store, hstore, hx⟩ := forall₂_exists_right hstores hx
      refine quiet_store hx ?_
      obtain ⟨named, -, rfl⟩ := mem_map.1 hstore
      intro y hy
      simp only [Expr.surface, mem_singleton] at hy
      subst hy
      exact isElement_eq_false (by simp)
    · obtain rfl := mem_singleton.1 hx
      exact quiet_ret (by simp)
  | call hform =>
    rw [hform] at hread
    intro x hx
    obtain rfl := mem_singleton.1 hx
    refine quiet_ret ?_
    simp only [surfaceOfExprs, append_nil]
    refine surface_forwarded _ ?_
    simpa [StmtForm.evaluated, surfaceOfExprs] using hread
  | callOnly hform =>
    rw [hform] at hread
    intro x hx
    simp only [mem_cons, not_mem_nil, or_false] at hx
    rcases hx with rfl | rfl
    · refine quiet_expr (surface_forwarded _ ?_)
      simpa [StmtForm.evaluated, surfaceOfExprs] using hread
    · exact quiet_ret (by simp)

end Quiet

/-! ## Every successful run -/

section Bodies

variable {env : Env} {lowerBody : SequenceLowering}

theorem bodies_complement (values : List Expr) :
    bodiesOfExprs (values.map fun value => complement value.span value) = bodiesOfExprs values := by
  induction values with
  | nil => rfl
  | cons value values ih => simpa [bodiesOfExprs, complement, Expr.bodies] using ih

/-- A relation between the function literals before and after a run, which holds of every body that
`lowerBody` lowers and carries over from one to the next. -/
structure Threads (env : Env) (lowerBody : SequenceLowering)
    (R : List (List Stmt) → List (List Stmt) → State → State → Prop) : Prop where
  nil : ∀ s, R [] [] s s
  body : ∀ declared stmts s, Ensures (lowerBody declared stmts)
    (fun out s' => R [stmts] [out] s s') (fun _ => True) s
  append : ∀ {bs bs' cs cs' s s₁ s'}, R bs bs' s s₁ → R cs cs' s₁ s' →
    R (bs ++ cs) (bs' ++ cs') s s'

section Threads

variable {R : List (List Stmt) → List (List Stmt) → State → State → Prop}

section

variable (h : Threads env lowerBody R)
include h

theorem Threads.chain {es es' s s'} (hes : Chain (fun e e' => R e.bodies e'.bodies) es es' s s') :
    R (bodiesOfExprs es) (bodiesOfExprs es') s s' := by
  induction hes with
  | nil => exact h.nil _
  | cons he _ ih => exact h.append he ih

theorem Threads.enters :
    Enters env lowerBody (fun _ => True) (fun _ => True) (fun e e' => R e.bodies e'.bodies)
      (fun _ => True) where
  parts _ _ _ := trivial
  keeps _ _ := trivial
  body _ _ := h.body _ _ _
  node _ hlit _ hes hfill := by
    rw [bodies_parts hlit, hfill.bodies]
    exact h.chain hes
  stop _ _ := trivial

theorem lowerExpr_threads (e : Expr) (s : State) :
    Ensures (lowerExpr env lowerBody e)
      (fun e' s' => R e.bodies e'.bodies s s') (fun _ => True) s :=
  h.enters.expr e trivial trivial

theorem lowerExpr?_threads (e : Option Expr) (s : State) :
    Ensures (lowerExpr? env lowerBody e)
      (fun e' s' => R (bodiesOfExpr? e) (bodiesOfExpr? e') s s') (fun _ => True) s := by
  refine (h.enters.expr? (fun _ _ => trivial) trivial).mono (fun e' s' he => ?_) fun _ => id
  rw [← bodiesOfExprs_toList, ← bodiesOfExprs_toList]
  exact h.chain he

theorem lowerExprs_threads (es : List Expr) (s : State) :
    Ensures (lowerExprs env lowerBody es)
      (fun es' s' => R (bodiesOfExprs es) (bodiesOfExprs es') s s') (fun _ => True) s :=
  (h.enters.exprs (fun _ _ => trivial) trivial).mono (fun _ _ => h.chain) fun _ => id

theorem lowerLabel_threads (exprs : Option (List Expr)) (s : State) :
    Ensures (lowerLabel env lowerBody exprs)
      (fun exprs' s' => R (bodiesOfExprs (exprs.getD [])) (bodiesOfExprs (exprs'.getD [])) s s')
      (fun _ => True) s :=
  (h.enters.label (fun _ _ => trivial) trivial).mono (fun _ _ h' => h.chain h'.2) fun _ => id

theorem lowerSpecs_threads (specs : List Spec) (s : State) :
    Ensures (lowerSpecs env lowerBody specs)
      (fun specs' s' => R (bodiesOfExprs (specs.flatMap Spec.values))
        (bodiesOfExprs (specs'.flatMap Spec.values)) s s') (fun _ => True) s :=
  (h.enters.specs (fun _ _ => trivial) trivial).mono (fun _ _ h' => h.chain h'.values) fun _ => id

end

end Threads

theorem Walks.bodies_append {bs bs' cs cs' s s1 s'} (h : Walks env (.bodies bs bs') s s1)
    (h' : Walks env (.bodies cs cs') s1 s') : Walks env (.bodies (bs ++ cs) (bs' ++ cs')) s s' := by
  induction bs generalizing bs' s with
  | nil =>
    cases h with
    | bodiesNil => exact h'
  | cons b bs ih =>
    cases h with
    | bodiesCons hb hbs => exact .bodiesCons hb (ih hbs)

end Bodies

/-- The form can be part of a legal file. -/
def isSupported : StmtForm → Bool
  | .labeled .. | .go _ | .defer _ | .send .. | .select _ | .typeSwitch .. => false
  | _ => true

theorem isSupported_of_own {stmt : Stmt} (h : stmt.ownViolations = []) :
    isSupported stmt.form = true := by
  obtain ⟨id, span, form⟩ := stmt
  cases form <;> simp_all [Stmt.ownViolations, Stmt.violations, isSupported]

theorem Rewrites.supported {stmt r} (h : Rewrites env stmt r) : isSupported r.form = true := by
  obtain ⟨id, span, form⟩ := stmt
  obtain ⟨before, form'⟩ := r
  cases h.reforms with
  | action _ ha | without _ ha => cases ha <;> rfl

/-- The statement holds no statements. -/
def isPlain : StmtForm → Bool
  | .decl _ | .expr _ | .incDec .. | .assign .. | .ret _ | .empty | .jump .. => true
  | _ => false

theorem isSupported_of_isPlain {form} (h : isPlain form = true) : isSupported form = true := by
  unfold isPlain at h
  split at h
  all_goals simp_all [isSupported]

section Settled

variable {plan : ReturnPlan} {stmt x : Stmt} {new : List Stmt} {s s' : State}

/-- What a return becomes: stores of single results, a call, and the return itself. -/
theorem Settles.forms (h : Settles env plan stmt s new s') (hx : x ∈ new) :
    (∃ target value, x.form = .assign [target] .assign [value]) ∨ (∃ e, x.form = .expr e) ∨
      x.id = stmt.id ∧ ∃ values, x.form = .ret values := by
  cases h with
  | values _ _ hstores | names _ _ _ hstores =>
    rcases mem_append.1 hx with hx | hx
    · obtain ⟨store, -, -, hform⟩ := forall₂_exists_right hstores hx
      exact .inl ⟨_, _, hform⟩
    · obtain rfl := mem_singleton.1 hx
      exact .inr (.inr ⟨rfl, _, rfl⟩)
  | call =>
    obtain rfl := mem_singleton.1 hx
    exact .inr (.inr ⟨rfl, _, rfl⟩)
  | callOnly =>
    simp only [mem_cons, not_mem_nil, or_false] at hx
    rcases hx with rfl | rfl
    · exact .inr (.inl ⟨_, rfl⟩)
    · exact .inr (.inr ⟨rfl, _, rfl⟩)

theorem Settles.plain (h : Settles env plan stmt s new s') : ∀ x ∈ new, isPlain x.form = true := by
  intro x hx
  rcases h.forms hx with ⟨_, _, hform⟩ | ⟨_, hform⟩ | ⟨-, _, hform⟩ <;> simp [hform, isPlain]

theorem Settles.supported (h : Settles env plan stmt s new s') :
    ∀ x ∈ new, isSupported x.form = true :=
  fun x hx => isSupported_of_isPlain (h.plain x hx)

/-- The only return among what a return becomes has its identity. -/
theorem Settles.id_of_ret (h : Settles env plan stmt s new s') (hx : x ∈ new) {values}
    (hret : x.form = .ret values) : x.id = stmt.id := by
  rcases h.forms hx with ⟨_, _, hform⟩ | ⟨_, hform⟩ | ⟨hid, -⟩
  · simp [hret] at hform
  · simp [hret] at hform
  · exact hid

end Settled

/-- What one visit of a statement can do. -/
inductive Visits (env : Env) (plan : Option ReturnPlan) (stmt : Stmt) (s : State) :
    Step → State → Prop
  | hoist {init inner} : stmt.form.withoutInit = some (init, inner) →
    Visits env plan stmt s (.revisit [⟨s.nextId, stmt.span,
      .block ⟨[init, ⟨stmt.id, stmt.span, inner⟩], stmt.span⟩⟩])
      { s with nextId := s.nextId + 1 }
  | post {init test post post' body posts decls s'} :
    stmt.form = .loop init test (some post) body → env.needsDeclarations post = true →
    Walks env (.seq plan [post] posts) s s' →
    posts.partition (fun x => x.id == post.id) = ([post'], decls) →
    (∀ x ∈ decls, isDeclaration x) →
    Visits env plan stmt s
      (.revisit (decls ++ [⟨stmt.id, stmt.span, .loop init test (some post') body⟩])) s'
  | split {names type value span form} :
    stmt.form = .decl ⟨.var, [.value names type [value]], span⟩ →
    Divided names stmt.span form →
    Visits env plan stmt s (.revisit [⟨stmt.id, stmt.span, form⟩, ⟨s.nextId, stmt.span,
      .assign (names.map fun name => .ident name.span name.val) .assign [value]⟩])
      { s with nextId := s.nextId + 1 }
  | replace {r s'} : Rewrites env stmt r → Effects env stmt r s s' →
    Visits env plan stmt s (.revisit (r.before ++ [⟨stmt.id, stmt.span, r.form⟩])) s'
  | settle {p step s'} : plan = some p → env.Idle stmt → stmt.id ∉ s.settled →
    Settles env p stmt s step.stmts s' → Visits env plan stmt s step s'
  | enter : env.Quiet stmt → (∀ p ∈ plan, lowerReturn env p stmt s = .ok (none, s)) →
    Visits env plan stmt s (.enter stmt []) s

section Visits

variable {env : Env} {plan : Option ReturnPlan} {stmt : Stmt} {s : State}

theorem stepOf_visits (declared : List String) (hhoists : env.hoists stmt = false)
    (hpost : env.splitsPost stmt = false) :
    Ensures (stepOf ⟨env, plan⟩ declared stmt) (Visits env plan stmt s) (Halt.IsOf stmt) s := by
  refine ensures_splitVarDecl.bind ?_
  intro r s1 hr
  cases r with
  | some stmts =>
    obtain ⟨names, type, value, span, form, hform, hnew, rfl, rfl⟩ := hr
    exact .split hform hnew
  | none =>
    obtain ⟨rfl, hsplit⟩ := hr
    refine (replaceStmt_outcome declared s1).bind ?_
    intro r s2 hr
    cases r with
    | some r => exact .replace hr.1 hr.2
    | none =>
      obtain ⟨rfl, hidle⟩ := hr
      have hquiet : env.Quiet stmt := ⟨hidle, hhoists, hpost, hsplit⟩
      cases plan with
      | none => exact .enter hquiet (by simp)
      | some p =>
        rw [ensures_bind]
        have hspec : Ensures (lowerReturn env p stmt) _ (Halt.IsOf stmt) s2 := ensures_lowerReturn
        refine Ensures.intro ?_ fun _ hstop => hspec.of_error hstop
        intro r s3 hreturn
        replace hspec := hspec.of_ok hreturn
        cases r with
        | some step =>
          obtain ⟨hfresh, hsettles⟩ := hspec.2 step rfl
          exact .settle rfl hidle hfresh hsettles
        | none =>
          obtain ⟨rfl, -⟩ := hspec.1 rfl
          exact .enter hquiet (by simpa using hreturn)

theorem Visits.supported {x more s'} (h : Visits env plan stmt s (.enter x more) s')
    (hown : stmt.ownViolations = []) : isSupported x.form = true := by
  generalize hstep : Step.enter x more = step at h
  cases h with
  | settle _ _ _ hsettles =>
    subst hstep
    exact hsettles.supported x mem_cons_self
  | enter =>
    cases hstep
    exact isSupported_of_own hown
  | _ => contradiction

end Visits

/-- A part that is one element, and the other part, are what was divided. -/
theorem perm_of_partition {p stmts others} (h : stmts.partition p = ([x], others)) :
    (x :: others).Perm stmts := by
  rw [partition_eq_filter_filter, Prod.mk.injEq] at h
  have hperm := filter_append_perm p stmts
  have hothers : stmts.filter (fun x => !p x) = others := h.2
  rwa [h.1, hothers] at hperm

/-- Every successful run with a given amount of fuel is described by `Walks`. -/
structure WalkRuns (env : Env) (fuel : Nat) : Prop where
  seq : ∀ plan declared stmts s, Ensures (lowerSeq fuel ⟨env, plan⟩ declared stmts)
    (fun out s' => Walks env (.seq plan stmts out) s s') (fun _ => True) s
  stmt : ∀ plan stmt s, isSupported stmt.form = true → Ensures (lowerStmt fuel ⟨env, plan⟩ stmt)
    (fun out s' => Walks env (.stmt plan stmt out) s s') (fun _ => True) s
  arms : ∀ plan clauses s, Ensures (lowerCases fuel ⟨env, plan⟩ clauses)
    (fun out s' => Walks env (.arms plan clauses out) s s') (fun _ => True) s
  header : ∀ plan stmt s, Ensures (lowerHeader fuel ⟨env, plan⟩ stmt)
    (fun out s' => Walks env (.header plan stmt out) s s') (fun _ => True) s

namespace WalkRuns

variable {env : Env} {fuel : Nat} {plan : Option ReturnPlan} {s : State}

theorem ensures_legal (stmt : Stmt) :
    Ensures (requireLegal (stmt.ownViolations.map Violation.report))
      (fun _ s' => s' = s ∧ stmt.ownViolations = []) Halt.IsFatal s := by
  rw [ensures_requireLegal]
  split
  · rename_i h
    exact ⟨rfl, map_eq_nil_iff.1 h⟩
  · trivial

theorem ensures_splitPost (id : NodeId) {span} (stmts : List Stmt)
    (hhalt : halt (.fatal (unplacedPost span))) :
    Ensures (splitPost id span stmts) (fun p s' => s' = s ∧
      stmts.partition (fun x => x.id == id) = ([p.2], p.1) ∧ ∀ x ∈ p.1, isDeclaration x)
      halt s := by
  unfold splitPost
  split
  · rename_i post others hparts
    split
    · rename_i hdecls
      exact ⟨rfl, hparts, all_eq_true.1 hdecls⟩
    · exact hhalt
  · exact hhalt

theorem ensures_wrapElse (stmt : Stmt) :
    Ensures (wrapElse env stmt) (fun wrapped s' =>
      (wrapped = stmt ∧ s' = s ∧ ∀ init test body otherwise,
        stmt.form = .cond init test body otherwise →
        init.any env.needsSplice = false ∧ env.readsElement stmt.span test = false) ∨
      (wrapped = ⟨s.nextId, stmt.span, .block ⟨[stmt], stmt.span⟩⟩ ∧
        s' = { s with nextId := s.nextId + 1 } ∧
        ∃ init test body otherwise, stmt.form = .cond init test body otherwise)) halt s := by
  unfold wrapElse
  split
  · rename_i init test body otherwise hform
    split
    · exact .inr ⟨rfl, rfl, init, test, body, otherwise, hform⟩
    · rename_i hneeds
      refine .inl ⟨rfl, rfl, ?_⟩
      intro init' test' body' otherwise' hform'
      rw [hform] at hform'
      obtain ⟨rfl, rfl, -⟩ := StmtForm.cond.inj hform'
      simpa using hneeds
  · rename_i hform
    refine .inl ⟨rfl, rfl, ?_⟩
    intro init test body otherwise hform'
    exact absurd hform' (hform _ _ _ _)

theorem zero : WalkRuns env 0 where
  seq _ _ _ _ := by unfold lowerSeq; trivial
  stmt _ _ _ _ := by unfold lowerStmt; trivial
  arms _ _ _ := by unfold lowerCases; trivial
  header _ _ _ := by unfold lowerHeader; trivial

/-- What a visit does, when the post statement of a loop may be lowered for itself. -/
theorem stepAt_visits {stmt} (hhalt : ∀ r : Halt, r.IsOf stmt → halt r) (declared : List String)
    (hposts : ∀ init test post body, stmt.form = .loop init test (some post) body →
      env.needsDeclarations post = true → Ensures (lowerSeq fuel ⟨env, plan⟩ [] [post])
        (fun posts s' => Walks env (.seq plan [post] posts) s s') halt s) :
    Ensures (stepAt (fuel + 1) ⟨env, plan⟩ declared stmt) (Visits env plan stmt s) halt s := by
  cases hhoists : env.hoists stmt with
  | true =>
    unfold stepAt
    refine ensures_hoistInit.bind ?_
    intro r s1 hr
    cases r with
    | none => simp [hhoists] at hr
    | some block =>
      obtain ⟨init, inner, hform, rfl, rfl⟩ := hr
      exact .hoist hform
  | false =>
    cases hpost : env.splitsPost stmt with
    | false =>
      rw [stepAt_eq_stepOf hhoists hpost]
      exact (stepOf_visits declared hhoists hpost).mono (fun _ _ h => h) hhalt
    | true =>
      unfold stepAt
      rw [hoistInit_eq_none hhoists, pure_bind]
      dsimp only
      unfold Env.splitsPost at hpost
      split
      · rename_i init test post body hform
        rw [hform] at hpost
        rw [if_pos hpost, ensures_bind]
        refine (hposts init test post body hform hpost).imp ?_
        intro posts s1 hwalks
        rw [ensures_bind]
        have hunplaced : (Halt.fatal (unplacedPost post.span)).IsOf stmt := by
          intro norm h
          have hform' := ((Stmt.fits_iff stmt).1 h).2
          rw [hform] at hform'
          obtain ⟨-, -, hpost', -, hheads⟩ := hform'
          exact norm.unplaced _ (hheads.post (Stmt.Fits.span hpost'))
        refine (ensures_splitPost post.id posts hunplaced).mono ?_ hhalt
        rintro p s2 ⟨rfl, hparts, hdecls⟩
        exact .post hform hpost hwalks hparts hdecls
      · rename_i hform
        split at hpost
        · exact absurd ‹_› (hform _ _ _ _)
        · contradiction

theorem lowerReturn_of_settled (plan : ReturnPlan) {stmt}
    (h : ∀ values, stmt.form = .ret values → stmt.id ∈ s.settled) :
    lowerReturn env plan stmt s = .ok (none, s) := by
  obtain ⟨id, span, form⟩ := stmt
  cases form with
  | ret values =>
    have hid : s.settled.contains id = true := by simpa using h values rfl
    show (if s.settled.contains id then pure none else _ : LowerM (Option Step)) s = _
    rw [if_pos hid]
    rfl
  | _ => rfl

/-- Quiet statements are entered one after the other. -/
theorem ensures_each {bound} (walk : ∀ m, m ≤ bound → WalkRuns env m) {stmts}
    (hquiet : ∀ x ∈ stmts, env.Quiet x) (hsupported : ∀ x ∈ stmts, isSupported x.form = true)
    (hsettled : ∀ x ∈ stmts, ∀ values, x.form = .ret values → x.id ∈ s.settled) (rest : List Stmt)
    (hfuel : fuel ≤ bound) (declared : List String) :
    Ensures (lowerSeq fuel ⟨env, plan⟩ declared (stmts ++ rest))
      (fun out s' => ∃ stmts' out' s1, out = stmts' ++ out' ∧
        Walks env (.each plan stmts stmts') s s1 ∧ Walks env (.seq plan rest out') s1 s')
      (fun _ => True) s := by
  induction stmts generalizing fuel declared s with
  | nil =>
    refine ((walk fuel hfuel).seq plan declared rest s).imp ?_
    intro out s' hout
    exact ⟨[], out, s, rfl, .eachNil, hout⟩
  | cons stmt stmts ih =>
    cases fuel with
    | zero => unfold lowerSeq; trivial
    | succ fuel =>
      rw [cons_append]
      unfold lowerSeq
      rw [ensures_bind]
      refine (ensures_legal stmt).mono ?_ fun _ _ => trivial
      rintro _ s1 ⟨rfl, -⟩
      rw [ensures_bind]
      cases fuel with
      | zero => unfold stepAt; trivial
      | succ fuel =>
        have hplan : ∀ p ∈ plan, lowerReturn env p stmt s1 = .ok (none, s1) :=
          fun p _ => lowerReturn_of_settled p (hsettled stmt mem_cons_self)
        have hstep := stepAt_of_quiet (hquiet stmt mem_cons_self) hplan fuel declared
        refine Ensures.intro ?_ fun _ _ => trivial
        intro step s2 hstep'
        obtain ⟨rfl, rfl⟩ : Step.enter stmt [] = step ∧ s1 = s2 := by
          simpa [hstep] using hstep'
        refine ((walk _ (by omega)).stmt plan stmt s1 (hsupported stmt mem_cons_self)).bind ?_
        intro stmt' s2 hstmt
        rw [ensures_bind, nil_append]
        refine (ih (fun x hx => hquiet x (mem_cons_of_mem _ hx))
          (fun x hx => hsupported x (mem_cons_of_mem _ hx))
          (fun x hx values hform => hstmt.grows.2
            (hsettled x (mem_cons_of_mem _ hx) values hform))
          (by omega) _).imp ?_
        rintro _ s3 ⟨stmts', out, s4, rfl, hstmts, hout⟩
        exact ⟨stmt' :: stmts', out, s4, rfl,
          .eachCons (hquiet stmt mem_cons_self) hstmt hstmts, hout⟩

theorem seq_succ (walk : ∀ m, m ≤ fuel → WalkRuns env m) (declared : List String)
    (stmts : List Stmt) :
    Ensures (lowerSeq (fuel + 1) ⟨env, plan⟩ declared stmts)
      (fun out s' => Walks env (.seq plan stmts out) s s') (fun _ => True) s := by
  unfold lowerSeq
  cases stmts with
  | nil => exact .nil
  | cons stmt rest =>
    rw [ensures_bind]
    refine (ensures_legal stmt).mono ?_ fun _ _ => trivial
    rintro _ s1 ⟨rfl, hown⟩
    rw [ensures_bind]
    cases fuel with
    | zero => unfold stepAt; trivial
    | succ fuel =>
      refine (stepAt_visits (fun _ _ => trivial) declared fun _ _ post _ _ _ =>
        (walk fuel (Nat.le_succ _)).seq plan [] [post] s1).imp ?_
      intro step s2 hstep
      -- what is revisited is done with one unit of fuel less
      have hrevisit (stmts : List Stmt) :=
        (walk (fuel + 1) (Nat.le_refl _)).seq plan declared stmts s2
      cases hstep with
      | hoist hform => exact (hrevisit _).imp (fun _ _ h => .hoist hown hform h)
      | post hform hneeds hposts hparts hdecls =>
        refine (hrevisit _).imp ?_
        intro out s' hout
        rw [append_assoc] at hout
        exact .post hown hform hneeds hposts hparts hdecls hout
      | split hform hnew => exact (hrevisit _).imp (fun _ _ h => .split hown hform hnew h)
      | replace hrewrites hissues =>
        refine (hrevisit _).imp ?_
        intro out s' hout
        rw [append_assoc] at hout
        exact .replace hown hrewrites hissues hout
      | enter hquiet hreturn =>
        refine ((walk (fuel + 1) (Nat.le_refl _)).stmt plan stmt _
          (isSupported_of_own hown)).bind ?_
        intro stmt' s3 hstmt
        refine ((walk (fuel + 1) (Nat.le_refl _)).seq plan _ rest s3).bind ?_
        intro out s' hout
        exact .enter hown hquiet hreturn hstmt hout
      | @settle p _ _ hplan hidle hfresh hsettles =>
        subst hplan
        have hquiet := hsettles.quiet hidle
        have hret : ∀ x ∈ step.stmts, ∀ values, x.form = .ret values → x.id ∈ s2.settled := by
          intro x hx values hform
          rw [hsettles.id_of_ret hx hform, hsettles.grows.2]
          exact mem_cons_self
        cases step with
        | revisit new =>
          refine (ensures_each walk hquiet hsettles.supported hret rest (Nat.le_refl _)
            declared).imp ?_
          rintro _ s' ⟨new', out, s3, rfl, hnew, hout⟩
          exact .settle hown hidle hfresh hsettles hnew hout
        | enter entered more =>
          refine ((walk (fuel + 1) (Nat.le_refl _)).stmt (some p) entered s2
            (hsettles.supported _ mem_cons_self)).bind ?_
          intro entered' s3 hentered
          refine (ensures_each walk (fun x hx => hquiet x (mem_cons_of_mem _ hx))
            (fun x hx => hsettles.supported x (mem_cons_of_mem _ hx))
            (fun x hx values hform =>
              hentered.grows.2 (hret x (mem_cons_of_mem _ hx) values hform))
            rest (Nat.le_refl _) _).bind ?_
          rintro _ s' ⟨more', out, s4, rfl, hmore, hout⟩
          exact .settle hown hidle hfresh hsettles
            (.eachCons (hquiet _ mem_cons_self) hentered hmore) hout

/-- The walk with less fuel lowers the bodies of function literals. -/
theorem threads (walk : WalkRuns env fuel) :
    Threads env (lowerSeq fuel ⟨env, none⟩) fun bs bs' => Walks env (.bodies bs bs') where
  nil _ := .bodiesNil
  body declared stmts s :=
    (walk.seq none declared stmts s).imp (fun _ _ h => .bodiesCons h .bodiesNil)
  append := Walks.bodies_append

theorem arms_succ (walk : WalkRuns env fuel) (clauses : List CaseClause) :
    Ensures (lowerCases (fuel + 1) ⟨env, plan⟩ clauses)
      (fun out s' => Walks env (.arms plan clauses out) s s') (fun _ => True) s := by
  unfold lowerCases
  cases clauses with
  | nil => exact .armsNil
  | cons clause clauses =>
    obtain ⟨exprs, body, span⟩ := clause
    refine .follow ?_
    intro exprs' s1 hlabel
    have hbodies := (lowerLabel_threads walk.threads exprs s).of_ok hlabel
    refine (walk.seq plan [] body s1).bind ?_
    intro out s2 hout
    refine (walk.arms plan clauses s2).bind ?_
    intro clauses' s3 hclauses
    exact .armsCons hlabel hbodies hout hclauses

theorem header_succ (walk : WalkRuns env fuel) (stmt : Option Stmt) :
    Ensures (lowerHeader (fuel + 1) ⟨env, plan⟩ stmt)
      (fun out s' => Walks env (.header plan stmt out) s s') (fun _ => True) s := by
  unfold lowerHeader
  cases stmt with
  | none => exact .noHeader
  | some stmt =>
    rw [ensures_bind]
    refine (ensures_legal stmt).mono ?_ fun _ _ => trivial
    rintro _ s1 ⟨rfl, hown⟩
    rw [ensures_bind]
    refine (replaceStmt_outcome [] s1).mono ?_ fun _ _ => trivial
    intro r s2 hr
    rcases r with _ | ⟨_ | _, form⟩
    · obtain ⟨rfl, hidle⟩ := hr
      exact (walk.stmt plan stmt s2 (isSupported_of_own hown)).bind
        fun _ _ h => .header hown hidle h
    · obtain ⟨hrewrites, hissues⟩ := hr
      exact (walk.stmt plan ⟨stmt.id, stmt.span, form⟩ s2 hrewrites.supported).bind
        fun _ _ h => .inPlace hown hrewrites hissues h
    · trivial

theorem ensures_lowerBlock (walk : ∀ m, m ≤ fuel → WalkRuns env m) (stmts : List Stmt)
    (place : Span) :
    Ensures (lowerBlock fuel ⟨env, plan⟩ ⟨stmts, place⟩)
      (fun block s' => ∃ out, block = ⟨out, place⟩ ∧ Walks env (.seq plan stmts out) s s')
      (fun _ => True) s := by
  cases fuel with
  | zero => unfold lowerBlock; trivial
  | succ fuel =>
    exact ((walk fuel (Nat.le_succ _)).seq plan [] stmts s).bind fun out _ h => ⟨out, rfl, h⟩

theorem stmt_succ (walk' : ∀ m, m ≤ fuel → WalkRuns env m) (stmt : Stmt)
    (hsupported : isSupported stmt.form = true) :
    Ensures (lowerStmt (fuel + 1) ⟨env, plan⟩ stmt)
      (fun out s' => Walks env (.stmt plan stmt out) s s') (fun _ => True) s := by
  have walk := walk' fuel (Nat.le_refl _)
  obtain ⟨id, span, form⟩ := stmt
  unfold lowerStmt
  cases form with
  | decl decl =>
    obtain ⟨keyword, specs, place⟩ := decl
    simp only [lowerGenDecl, bind_assoc, pure_bind]
    refine .follow ?_
    intro specs' s' hspecs
    exact .plain fuel (.decl hspecs) ((lowerSpecs_threads walk.threads specs s).of_ok hspecs)
  | expr e =>
    refine .follow ?_
    intro e' s' he
    exact .plain fuel (.expr he)
      (.bodies_append ((lowerExpr_threads walk.threads e s).of_ok he) .bodiesNil)
  | incDec e increments =>
    refine .follow ?_
    intro e' s' he
    exact .plain fuel (.incDec he)
      (.bodies_append ((lowerExpr_threads walk.threads e s).of_ok he) .bodiesNil)
  | assign targets op values =>
    simp only [lowerAssign, bind_assoc]
    refine .follow ?_
    intro targets' s1 htargets
    refine .follow ?_
    intro values' s' hvalues
    have hbodies := ((lowerExprs_threads walk.threads targets s).of_ok htargets).bodies_append
      ((lowerExprs_threads walk.threads values s1).of_ok hvalues)
    split
    · rename_i hop
      subst hop
      refine .plain fuel (.andNot htargets hvalues) ?_
      simpa only [StmtForm.bodies, StmtForm.exprs, bodiesOfExprs_append, bodies_complement]
    · rename_i hop
      refine .plain fuel (.assign hop htargets hvalues) ?_
      simpa only [StmtForm.bodies, StmtForm.exprs, bodiesOfExprs_append]
  | ret values =>
    refine .follow ?_
    intro values' s' hvalues
    exact .plain fuel (.ret hvalues) ((lowerExprs_threads walk.threads values s).of_ok hvalues)
  | block body =>
    obtain ⟨stmts, place⟩ := body
    refine (ensures_lowerBlock walk' stmts place).bind ?_
    rintro _ s' ⟨out, rfl, hout⟩
    exact .block hout
  | cond init test body otherwise =>
    obtain ⟨stmts, place⟩ := body
    refine (walk.header plan init s).bind ?_
    intro init' s1 hinit
    refine .follow ?_
    intro test' s2 htest
    have hbodies := (lowerExpr_threads walk.threads test s1).of_ok htest
    refine (ensures_lowerBlock walk' stmts place).bind ?_
    rintro _ s3 ⟨out, rfl, hout⟩
    cases otherwise with
    | none => exact .cond hinit htest hbodies hout .noBranch
    | some stmt =>
      refine (ensures_wrapElse stmt).bind ?_
      intro wrapped s4 hwrapped
      rw [ensures_bind]
      refine (ensures_legal wrapped).mono ?_ fun _ _ => trivial
      rintro _ s5 ⟨rfl, hown⟩
      refine (walk.stmt plan wrapped s5 (isSupported_of_own hown)).bind ?_
      intro stmt' s' hstmt
      refine .cond hinit htest hbodies hout ?_
      rcases hwrapped with ⟨rfl, rfl, hkeeps⟩ | ⟨rfl, rfl, _, _, _, _, hform⟩
      · exact .branch hown hkeeps hstmt
      · exact .wrap hform hstmt
  | switch init tag clauses =>
    refine (walk.header plan init s).bind ?_
    intro init' s1 hinit
    refine .follow ?_
    intro tag' s2 htag
    have hbodies := (lowerExpr?_threads walk.threads tag s1).of_ok htag
    refine (walk.arms plan clauses s2).bind ?_
    intro clauses' s' hclauses
    exact .switch hinit htag hbodies hclauses
  | loop init test post body =>
    obtain ⟨stmts, place⟩ := body
    refine (walk.header plan init s).bind ?_
    intro init' s1 hinit
    refine .follow ?_
    intro test' s2 htest
    have hbodies := (lowerExpr?_threads walk.threads test s1).of_ok htest
    refine (walk.header plan post s2).bind ?_
    intro post' s3 hpost
    refine (ensures_lowerBlock walk' stmts place).bind ?_
    rintro _ s' ⟨out, rfl, hout⟩
    exact .loop hinit htest hbodies hpost hout
  | range key value defines subject body =>
    obtain ⟨stmts, place⟩ := body
    refine .follow ?_
    intro key' s1 hkey
    refine .follow ?_
    intro value' s2 hvalue
    refine .follow ?_
    intro subject' s3 hsubject
    have hbodies := (((lowerExpr?_threads walk.threads key s).of_ok hkey).bodies_append
      ((lowerExpr?_threads walk.threads value s1).of_ok hvalue)).bodies_append
      ((lowerExpr_threads walk.threads subject s2).of_ok hsubject)
    refine (ensures_lowerBlock walk' stmts place).bind ?_
    rintro _ s' ⟨out, rfl, hout⟩
    exact .range hkey hvalue hsubject hbodies hout
  | empty => exact .plain fuel .empty .bodiesNil
  | jump jump label => exact .plain fuel .jump .bodiesNil
  | labeled | go | defer | send | select | typeSwitch =>
    simp [isSupported] at hsupported

end WalkRuns

/-- Every successful run of the walk is described by `Walks`. -/
theorem walk_runs (env : Env) (fuel : Nat) : WalkRuns env fuel := by
  induction fuel using Nat.strongRecOn with
  | _ fuel ih =>
    cases fuel with
    | zero => exact .zero
    | succ fuel =>
      have walk (m : Nat) (hm : m ≤ fuel) : WalkRuns env m := ih m (Nat.lt_succ_of_le hm)
      exact {
        seq := fun plan declared stmts s => WalkRuns.seq_succ walk declared stmts
        stmt := fun plan stmt s hsupported => WalkRuns.stmt_succ walk stmt hsupported
        arms := fun plan clauses s => WalkRuns.arms_succ (walk fuel (Nat.le_refl _)) clauses
        header := fun plan stmt s => WalkRuns.header_succ (walk fuel (Nat.le_refl _)) stmt }

/-! ## Whole files -/

/-- The variables were declared, and nothing else happened. -/
structure Introduces (vars : List Var) (s : State) (new : List Stmt) (s' : State) : Prop
    extends Issues s new s' where
  names : namesOf new = vars.map Prod.fst
  discards : s'.discards = s.discards

/-- A declaration is lowered to the second one. The body of a function starts with the variables
that stand in for named results. -/
inductive WalksDecl (env : Env) : Decl → Decl → State → State → Prop
  | head {func s} : func.body = none → func.headReports = [] →
    WalksDecl env (.func func) (.func (lowerHead func).func) s s
  | func {func body locals out s s₁ s'} : func.body = some body →
    (∀ x ∈ locals, Declares body.span x) → Introduces (lowerHead func).locals s locals s₁ →
    Walks env (.seq (lowerHead func).plan (locals ++ body.stmts) out) s₁ s' →
    func.headReports = [] →
    WalksDecl env (.func func)
      (.func { (lowerHead func).func with body := some ⟨out, body.span⟩ }) s s'
  | gen {decl specs fuel s s'} :
    Walks env (.bodies (bodiesOfExprs (decl.specs.flatMap Spec.values))
      (bodiesOfExprs (specs.flatMap Spec.values))) s s' →
    lowerSpecs env (lowerSeq fuel ⟨env, none⟩) decl.specs s = .ok (specs, s') →
    violationsOfSpecs decl.specs = [] →
    WalksDecl env (.gen decl) (.gen { decl with specs }) s s'

/-- So are declarations, one after the other. -/
inductive WalksDecls (env : Env) : List Decl → List Decl → State → State → Prop
  | nil {s} : WalksDecls env [] [] s s
  | cons {decl decl' decls decls' s s₁ s'} : WalksDecl env decl decl' s s₁ →
    WalksDecls env decls decls' s₁ s' → WalksDecls env (decl :: decls) (decl' :: decls') s s'

theorem WalksDecl.grows {decl decl' s s'} (h : WalksDecl env decl decl' s s') :
    s.nextId ≤ s'.nextId := by
  cases h with
  | head => exact Nat.le_refl _
  | func _ _ hissues hwalks => exact Nat.le_trans hissues.nextId hwalks.grows.1
  | gen hwalks => exact hwalks.grows.1

section File

variable {env : Env} {fuel : Nat} {s : State}

theorem lowerFunc_walks (func : FuncDecl) :
    Ensures (lowerFunc fuel env func)
      (fun func' s' => WalksDecl env (.func func) (.func func') s s') (fun _ => True) s := by
  unfold lowerFunc
  rw [ensures_bind, ensures_requireLegal]
  split
  · rename_i hhead
    dsimp only
    have hbody : (lowerHead func).func.body = func.body := rfl
    rw [hbody]
    cases hfunc : func.body with
    | none => exact .head hfunc hhead
    | some body =>
      refine (ensures_declareAny (lowerHead func).locals body.span).bind ?_
      rintro _ _ ⟨rfl, rfl⟩
      refine ((walk_runs env fuel).seq (lowerHead func).plan _ _ _).bind ?_
      intro out s' hwalks
      refine .func hfunc (fun _ => declares_of_mem) ?_ hwalks hhead
      exact ⟨issues_declaration _ _ rfl rfl, namesOf_declaration .., rfl⟩
  · trivial

theorem lowerDecl_walks (decl : Decl) :
    Ensures (lowerDecl fuel env decl) (fun decl' s' => WalksDecl env decl decl' s s')
      (fun _ => True) s := by
  cases decl with
  | func decl =>
    exact (lowerFunc_walks decl).bind fun _ _ h => h
  | gen decl =>
    unfold lowerDecl
    rw [ensures_bind, ensures_requireLegal]
    split
    · rename_i hlegal
      simp only [lowerGenDecl, bind_assoc, pure_bind, ensures_bind]
      refine .intro ?_ fun _ _ => trivial
      intro specs s' hspecs
      have hbodies := (lowerSpecs_threads (walk_runs env fuel).threads decl.specs s).of_ok hspecs
      exact .gen hbodies hspecs (map_eq_nil_iff.1 hlegal)
    · trivial

theorem lowerDecls_walks (decls : List Decl) :
    Ensures (decls.mapM (lowerDecl fuel env)) (fun decls' s' => WalksDecls env decls decls' s s')
      (fun _ => True) s := by
  induction decls generalizing s with
  | nil => exact .nil
  | cons decl decls ih =>
    rw [mapM_cons, ensures_bind]
    refine (lowerDecl_walks decl).imp ?_
    intro decl' s1 hdecl
    exact ih.bind fun _ _ h => .cons hdecl h

/-- A successful lowering walks through the declarations of the file. -/
theorem lowerWith_walks {file resolver options lowered}
    (h : file.lowerWith fuel resolver options = .ok lowered) :
    ∃ s', WalksDecls ⟨resolver, options, shapesOf file⟩ file.decls lowered.file.decls
        { nextId := file.nextId } s' ∧
      lowered = ⟨{ file with decls := lowered.file.decls, nextId := s'.nextId }, s'.warnings⟩ :=
  (lowerWith_outcome (lowerDecls_walks file.decls)).1 lowered h

end File

end Lowering

end ScriptLowering
