import Mathlib.Logic.Relation
import ScriptLowering.Proofs.Walk

/-!
# What a definition declares

A definition with several targets, or of an element that is read, is split: its new names are
declared in front of it and it becomes an assignment. Which names are new depends on the sequence
it stands in. The lowering of a sequence is taken apart into moments, and at every moment the names
that count as declared are those its scope started with and those of the statements put out so far.
-/

namespace ScriptLowering.Lowering

open List

/-! ## The moments of a sequence -/

/-- A moment in the lowering of a sequence: what has been put out, the names that count as declared,
and what is still to be visited. -/
structure Moment where
  fuel : Nat
  done : List Stmt
  declared : List String
  pending : List Stmt
  state : State

/-- One visit takes a moment to the next. -/
inductive Moment.Next (frame : Frame) : Moment → Moment → Prop
  | revisit {fuel done declared stmt rest stmts s s'} : stmt.ownViolations = [] →
    stepAt fuel frame declared stmt s = .ok (.revisit stmts, s') →
    Next frame ⟨fuel + 1, done, declared, stmt :: rest, s⟩
      ⟨fuel, done, declared, stmts ++ rest, s'⟩
  | enter {fuel done declared stmt rest entered more out s s₁ s'} : stmt.ownViolations = [] →
    stepAt fuel frame declared stmt s = .ok (.enter entered more, s₁) →
    lowerStmt fuel frame entered s₁ = .ok (out, s') →
    Next frame ⟨fuel + 1, done, declared, stmt :: rest, s⟩
      ⟨fuel, done ++ [out], declared ++ declaredNames out, more ++ rest, s'⟩

/-- How the lowering ends that has come to this moment. -/
def Moment.finish (frame : Frame) (m : Moment) : Except Halt (List Stmt × State) :=
  (lowerSeq m.fuel frame m.declared m.pending m.state).map fun r => (m.done ++ r.1, r.2)

/-- The sequence is lowered to `out` in a scope that starts with the names `outer`. -/
def Lowers (fuel : Nat) (frame : Frame) (outer : List String) (stmts out : List Stmt)
    (s s' : State) : Prop :=
  ∃ m, Relation.ReflTransGen (Moment.Next frame) ⟨fuel, [], outer, stmts, s⟩ m ∧
    m.pending = [] ∧ m.done = out ∧ m.state = s'

section Moments

variable {frame : Frame} {fuel : Nat} {m m' : Moment} {outer : List String} {s s' : State}

theorem requireLegal_of_own {stmt : Stmt} (h : stmt.ownViolations = []) :
    requireLegal (stmt.ownViolations.map Violation.report) = pure () := by
  rw [h]
  rfl

theorem pure_apply {α : Type} (a : α) (s : State) : (pure a : LowerM α) s = .ok (a, s) := rfl

/-- A visit is part of the run: it does not change how the run ends. -/
theorem Moment.Next.finish (h : Next frame m m') : m.finish frame = m'.finish frame := by
  cases h with
  | revisit hown hstep =>
    unfold Moment.finish
    rw [lowerSeq, requireLegal_of_own hown]
    simp [bind, StateT.bind, Except.bind, pure_apply, hstep]
  | @enter fuel _ declared _ rest _ more out _ _ s' hown hstep hstmt =>
    unfold Moment.finish
    rw [lowerSeq, requireLegal_of_own hown]
    simp only [bind, StateT.bind, Except.bind, pure_apply, hstep, hstmt]
    cases lowerSeq fuel frame (declared ++ declaredNames out) (more ++ rest) s' with
    | error _ => rfl
    | ok r => simp [Except.map]

theorem Moment.Next.declared (h : Next frame m m')
    (hm : m.declared = outer ++ m.done.flatMap declaredNames) :
    m'.declared = outer ++ m'.done.flatMap declaredNames := by
  cases h with
  | revisit => exact hm
  | enter =>
    dsimp only at hm ⊢
    simp [hm]

/-- The invariants of a whole run. -/
theorem Moment.reaches {start} (h : Relation.ReflTransGen (Next frame) start m)
    (hstart : start.declared = outer ++ start.done.flatMap declaredNames) :
    start.finish frame = m.finish frame ∧ m.declared = outer ++ m.done.flatMap declaredNames := by
  induction h with
  | refl => exact ⟨rfl, hstart⟩
  | tail _ hnext ih => exact ⟨ih.1.trans hnext.finish, hnext.declared ih.2⟩

/-- A run that gives a result goes through moments to its end. -/
theorem reaches_end (fuel : Nat) (done : List Stmt) (declared : List String) (stmts : List Stmt)
    (s : State) :
    Ensures (lowerSeq fuel frame declared stmts) (fun out s' => ∃ m,
      Relation.ReflTransGen (Moment.Next frame) ⟨fuel, done, declared, stmts, s⟩ m ∧
        m.pending = [] ∧ m.done = done ++ out ∧ m.state = s') (fun _ => True) s := by
  induction fuel generalizing done declared stmts s with
  | zero => unfold lowerSeq; trivial
  | succ fuel ih =>
    cases stmts with
    | nil => exact ⟨_, .refl, rfl, (append_nil _).symm, rfl⟩
    | cons stmt rest =>
      refine ((WalkRuns.ensures_legal stmt).mono (fun _ _ h => h) fun _ _ => trivial).bind ?_
      rintro _ s1 ⟨rfl, hown⟩
      refine .follow ?_
      intro step s2 hstep
      cases step with
      | revisit stmts =>
        refine (ih done declared (stmts ++ rest) s2).imp ?_
        rintro out s' ⟨m, hm, hend⟩
        exact ⟨m, .head (.revisit hown hstep) hm, hend⟩
      | enter entered more =>
        refine .follow ?_
        intro out s3 hstmt
        refine (ih (done ++ [out]) (declared ++ declaredNames out) (more ++ rest) s3).bind ?_
        rintro outs s' ⟨m, hm, hpending, hdone, hstate⟩
        exact ⟨m, .head (.enter hown hstep hstmt) hm, hpending, by simpa using hdone, hstate⟩

theorem lowerSeq_lowers (fuel : Nat) (outer : List String) (stmts : List Stmt) (s : State) :
    Ensures (lowerSeq fuel frame outer stmts)
      (fun out s' => Lowers fuel frame outer stmts out s s') (fun _ => True) s :=
  reaches_end fuel [] outer stmts s

end Moments

/-- The names that the scope of a sequence starts with: in the outermost block of a function its
parameters and the results that are left, in that of a function literal its parameters and results.
Any other sequence, in a block, in an arm or for a post statement, starts with none. -/
structure OpensScopes (fuel : Nat) (env : Env) : Prop where
  func : ∀ func body s, func.body = some body → Ensures (lowerFunc fuel env func)
    (fun func' s' => ∃ out s₁, func'.body = some ⟨out, body.span⟩ ∧
      Lowers fuel ⟨env, (lowerHead func).plan⟩
        (Field.boundNames func'.params ++ Field.boundNames func'.results)
        (declaration (lowerHead func).locals body.span s.nextId ++ body.stmts) out s₁ s')
    (fun _ => True) s
  literal : ∀ span params results stmts place s, Ensures (lowerExpr env (lowerSeq fuel ⟨env, none⟩)
      (.funcLit span params results ⟨stmts, place⟩))
    (fun e s' => ∃ out, e = .funcLit span params results ⟨out, place⟩ ∧ Lowers fuel ⟨env, none⟩
      (Field.boundNames params ++ Field.boundNames results) stmts out s s') (fun _ => True) s
  block : ∀ plan stmts span s, Ensures (lowerBlock (fuel + 1) ⟨env, plan⟩ ⟨stmts, span⟩)
    (fun block s' => Lowers fuel ⟨env, plan⟩ [] stmts block.stmts s s') (fun _ => True) s
  arm : ∀ plan exprs stmts span clauses s,
    Ensures (lowerCases (fuel + 1) ⟨env, plan⟩ (⟨exprs, stmts, span⟩ :: clauses))
      (fun out _ => ∃ clause clauses' s₁ s₂, out = clause :: clauses' ∧
        Lowers fuel ⟨env, plan⟩ [] stmts clause.body s₁ s₂) (fun _ => True) s
  post : ∀ plan declared stmt init test post body s, stmt.form = .loop init test (some post) body →
    env.hoists stmt = false → env.needsDeclarations post = true →
    Ensures (stepAt (fuel + 1) ⟨env, plan⟩ declared stmt)
      (fun _ _ => ∃ out s₁, Lowers fuel ⟨env, plan⟩ [] [post] out s s₁) (fun _ => True) s

theorem opensScopes (fuel : Nat) (env : Env) : OpensScopes fuel env where
  func func body s hbody := by
    have hbody : (lowerHead func).func.body = some body := hbody
    unfold lowerFunc
    rw [ensures_bind, ensures_requireLegal]
    split
    · simp only [hbody]
      refine (ensures_declareAny _ _).bind ?_
      rintro _ s1 ⟨rfl, -⟩
      exact (lowerSeq_lowers fuel _ _ s1).bind fun out _ h => ⟨out, s1, rfl, h⟩
    · trivial
  literal _ _ _ stmts _ s := by
    exact (lowerSeq_lowers fuel _ stmts s).bind fun out _ h => ⟨out, rfl, h⟩
  block _ stmts _ s := by
    exact (lowerSeq_lowers fuel [] stmts s).bind fun _ _ h => h
  arm _ _ stmts _ _ s := by
    unfold lowerCases
    refine .follow ?_
    intro exprs s1 _
    refine (lowerSeq_lowers fuel [] stmts s1).bind ?_
    intro body s2 hlowers
    rw [ensures_bind]
    exact .intro (fun clauses _ _ => ⟨_, clauses, s1, s2, rfl, hlowers⟩) fun _ _ => trivial
  post _ _ stmt _ _ post _ s hform hhoists hneeds := by
    unfold stepAt
    rw [hoistInit_eq_none hhoists, pure_bind]
    simp only [hform, hneeds, if_true]
    refine (lowerSeq_lowers fuel [] [post] s).bind ?_
    intro out s1 hlowers
    exact .intro (fun _ _ _ => ⟨out, s1, hlowers⟩) fun _ _ => trivial

/-! ## The variables of a definition -/

/-- The targets of a read that have to be variables, with their types: the one for the element,
which is that of `value`, and the flag, unless it is blank. -/
def Env.elementReceivers (env : Env) (place : Span) (value : Expr) :
    List Expr → List (Expr × Option TypeExpr)
  | [] => []
  | first :: flags =>
    (first, (env.resolver.typeOf value place).map ResolvedType.annotation) ::
      (flags.filter fun flag => !flag.isBlank).map fun flag => (flag, some (.named "bool"))

/-- The targets of a definition by the results of `value`, with their types. A target is asked for
its own type before the result is. -/
def Env.resultReceivers (env : Env) (place : Span) (value : Expr) :
    (position : Nat) → List Expr → List (Expr × Option TypeExpr)
  | _, [] => []
  | position, target :: targets =>
    let result := env.resolver.resultType value position place
    let type := if target.isBlank then result else env.resolver.typeOf target place <|> result
    (target, type.map ResolvedType.annotation) ::
      env.resultReceivers place value (position + 1) targets

/-- The targets of a definition whose values are stored, with the types that the resolver gives. -/
def Env.receivers (env : Env) (place : Span) (targets : List Expr) (value : Expr) :
    List (Expr × Option TypeExpr) :=
  if env.isElement place value && targets.length ≤ 2 then
    env.elementReceivers place value targets
  else env.resultReceivers place value 0 targets

/-- The variables to declare for the receivers of values: a name that is in scope already is left
out, and a blank one gets a name of the supply. -/
def newVars (options : Options) (scope : List String) :
    (n : Nat) → List (Expr × Option TypeExpr) → List (String × Option TypeExpr)
  | _, [] => []
  | n, (target, type) :: receivers =>
    if target.isBlank then (options.discardName n, type) :: newVars options scope (n + 1) receivers
    else if target.boundName ∈ scope then newVars options scope n receivers
    else (target.boundName, type) :: newVars options scope n receivers

/-- The number of receivers that get a name of the supply. -/
def blanks (receivers : List (Expr × Option TypeExpr)) : Nat :=
  receivers.countP fun receiver => receiver.1.isBlank

/-- Variables with their types, as `newVars` has them. -/
def typed (vars : List Var) : List (String × Option TypeExpr) :=
  vars.map fun var => (var.1, some var.2)

section Variables

variable {env : Env} {options : Options} {scope : List String} {n m : Nat} {target target' : Expr}
  {vars : List Var} {place : Span} {value : Expr}

/-- One target, when it wants a variable exactly if it is blank or not in scope. -/
theorem Binds.newVars_cons {type} (h : Binds options n target
      (if target.isBlank || !scope.contains target.boundName then some type else none) target' vars
      m) (receivers : List (Expr × Option TypeExpr)) :
    newVars options scope n ((target, type.map ResolvedType.annotation) :: receivers) =
        typed vars ++ newVars options scope m receivers ∧
      m + blanks receivers =
        n + blanks ((target, type.map ResolvedType.annotation) :: receivers) := by
  generalize hwant : (if target.isBlank || !scope.contains target.boundName then some type
    else none) = want at h
  cases h with
  | blank hblank =>
    obtain rfl : type = some _ := by simpa [hblank] using hwant
    simp [newVars, typed, blanks, hblank]
    omega
  | new hblank =>
    obtain ⟨hnew, rfl⟩ : target.boundName ∉ scope ∧ type = some _ := by simpa [hblank] using hwant
    simp [newVars, typed, blanks, hblank, hnew]
  | old hblank =>
    have hold : target.boundName ∈ scope := by simpa [hblank] using hwant
    simp [newVars, typed, blanks, hblank, hold]

theorem boundName_eq {name} (h : target.name? = some name) : target.boundName = name := by
  simp [Expr.boundName, h]

theorem readWant_eq (h : target.name?.isSome) :
    env.readWant scope true value target place =
      if target.isBlank || !scope.contains target.boundName then
        some (env.resolver.typeOf value place) else none := by
  obtain ⟨name, hname⟩ := Option.isSome_iff_exists.1 h
  simp [Env.readWant, hname, boundName_eq hname]

theorem defineWant_eq (h : target.name?.isSome) (result : Option ResolvedType) :
    env.defineWant scope result place target =
      if target.isBlank || !scope.contains target.boundName then
        some (if target.isBlank then result else env.resolver.typeOf target place <|> result)
      else none := by
  obtain ⟨name, hname⟩ := Option.isSome_iff_exists.1 h
  simp only [Env.defineWant, hname, boundName_eq hname, Option.any_some]
  cases target.isBlank <;> simp

theorem BindsAll.newVars_eq {targets targets' position}
    (hnames : ∀ target ∈ targets, target.name?.isSome)
    (h : BindsAll options n targets (env.defineWants scope value place position targets) targets'
      vars m) :
    typed vars = newVars options scope n (env.resultReceivers place value position targets) ∧
      m = n + blanks (env.resultReceivers place value position targets) := by
  induction targets generalizing n position targets' vars with
  | nil =>
    cases h
    exact ⟨rfl, rfl⟩
  | cons target targets ih =>
    obtain ⟨hname, hnames⟩ := forall_mem_cons.1 hnames
    rw [Env.defineWants, defineWant_eq hname] at h
    cases h with
    | cons hfirst hrest =>
      obtain ⟨hvars, hm⟩ := ih hnames hrest
      obtain ⟨heq, hcount⟩ := hfirst.newVars_cons
        (env.resultReceivers place value (position + 1) targets)
      refine ⟨?_, by rw [hm, hcount]; rfl⟩
      rw [Env.resultReceivers, heq, ← hvars, typed, typed, typed, map_append]

/-- The flag of a read is a variable of its own unless it is blank. -/
theorem typed_flagVars (options : Options) (scope : List String) {flag? : Option Expr}
    (hname : ∀ flag ∈ flag?, flag.name?.isSome) (n : Nat) :
    let receivers := (flag?.toList.filter fun flag => !flag.isBlank).map fun flag =>
      (flag, some (TypeExpr.named "bool"))
    typed (flagVars scope true (flag?.filter fun flag => !flag.isBlank)) =
      newVars options scope n receivers ∧ blanks receivers = 0 := by
  cases flag? with
  | none => exact ⟨rfl, rfl⟩
  | some flag =>
    obtain ⟨name, hname⟩ := Option.isSome_iff_exists.1 (hname flag rfl)
    cases hblank : flag.isBlank with
    | true => simp [hblank, Option.filter, flagVars, typed, newVars, blanks]
    | false =>
      by_cases hscope : name ∈ scope <;>
        simp [hblank, hname, Option.filter, flagVars, typed, newVars, blanks, boundName_eq hname,
          hscope]

end Variables

/-! ## The rules -/

/-- How a definition with the given targets is replaced in the state `s`: its new variables are
declared in front, in order, and what is left defines nothing. -/
def Splits (env : Env) (scope : List String) (stmt : Stmt) (targets : List Expr) (value : Expr)
    (s : State) (r : Replacement) (s' : State) : Prop :=
  let receivers := env.receivers stmt.span targets value
  ∃ vars, r.before = declaration vars stmt.span s.nextId ∧
    typed vars = newVars env.options scope s.discards receivers ∧
    s'.discards = s.discards + blanks receivers ∧
    ∀ targets' values, r.form ≠ .assign targets' .define values

section Rules

variable {env : Env} {scope : List String} {stmt : Stmt} {targets : List Expr} {value : Expr}
  {s : State}

theorem readForm_ne_define {base key target flag? span} (targets values : List Expr) :
    env.readForm base key target flag? span ≠ .assign targets .define values := by
  cases flag? <;> simp [Env.readForm]

theorem readInto_splits {span : Span} {base key first second?}
    (hnames : ∀ target ∈ first :: second?.toList, target.name?.isSome)
    (helement : env.isElement stmt.span (.index span base key) = true) :
    Ensures (readInto env scope stmt true (.index span base key) base key first second?)
      (fun r s' => ∃ r', r = some r' ∧
        Splits env scope stmt (first :: second?.toList) (.index span base key) s r' s')
      (fun _ => True) s := by
  obtain ⟨hfirst, hsecond⟩ := forall_mem_cons.1 hnames
  have hlen : (first :: second?.toList).length ≤ 2 := by cases second? <;> simp
  have hreceivers : env.receivers stmt.span (first :: second?.toList) (.index span base key) =
      env.elementReceivers stmt.span (.index span base key) (first :: second?.toList) :=
    if_pos (by rw [helement, decide_eq_true hlen]; rfl)
  unfold readInto
  rw [if_pos helement]
  refine (ensures_readTarget scope true _ first stmt.span fun _ _ _ => trivial).bind ?_
  rintro p _ ⟨n, rfl, hbinds⟩
  refine (ensures_declareAny _ stmt.span).bind ?_
  rintro _ _ ⟨rfl, rfl⟩
  rw [readWant_eq hfirst] at hbinds
  obtain ⟨hvars, hcount⟩ := hbinds.newVars_cons
    ((second?.toList.filter fun flag => !flag.isBlank).map fun flag => (flag, some (.named "bool")))
  obtain ⟨hflags, hnone⟩ := typed_flagVars env.options scope
    (fun flag h => hsecond flag (Option.mem_toList.2 h)) n
  refine ⟨_, rfl, _, rfl, ?_, ?_, readForm_ne_define⟩
  · rw [hreceivers, Env.elementReceivers, hvars, ← hflags, typed, typed, typed, map_append]
  · rw [hreceivers, Env.elementReceivers, ← hcount, hnone]
    rfl

section

variable (hform : stmt.form = .assign targets .define [value])
include hform

theorem splitDefinition_splits (hlen : 1 < targets.length)
    (hnames : ∀ target ∈ targets, target.name?.isSome)
    (hother : (env.isElement stmt.span value && targets.length ≤ 2) = false) :
    Ensures (splitDefinition env scope stmt)
      (fun r s' => ∃ r', r = some r' ∧ Splits env scope stmt targets value s r' s')
      (fun _ => True) s := by
  unfold splitDefinition
  simp only [hform]
  rw [if_neg (by omega)]
  refine (ensures_defineTargets scope value stmt.span 0 fun _ _ _ _ _ => trivial).bind ?_
  rintro p _ ⟨n, rfl, hbinds⟩
  refine (ensures_declareAny _ stmt.span).bind ?_
  rintro _ _ ⟨rfl, rfl⟩
  obtain ⟨hvars, hcount⟩ := hbinds.newVars_eq hnames
  refine ⟨_, rfl, _, rfl, ?_, ?_, by simp⟩
  · rw [Env.receivers, hother]
    exact hvars
  · rw [Env.receivers, hother]
    exact hcount

omit hform in
theorem writeElement_of_define {values} (hform : stmt.form = .assign targets .define values) :
    writeElement env stmt = none := by
  unfold writeElement
  split
  · rename_i hform'
    rw [hform] at hform'
    cases hform'
  · rfl

omit hform in
/-- A read applies where the value is an element. -/
theorem readElement_eq_readInto {op span base key first second?}
    (hform : stmt.form = .assign (first :: second?.toList) op [.index span base key])
    (hop : op.combines? = none) : readElement env scope stmt =
      readInto env scope stmt (op == .define) (.index span base key) base key first second? := by
  unfold readElement
  rw [hform]
  cases second? <;> simp [hop]

theorem readElement_of_other (hlen : 1 < targets.length)
    (hother : (env.isElement stmt.span value && targets.length ≤ 2) = false) :
    Ensures (readElement env scope stmt) (fun r s' => r = none ∧ s' = s) (fun _ => True) s := by
  unfold readElement
  split
  · rename_i targets' op span base key hform'
    rw [hform] at hform'
    obtain ⟨rfl, rfl, hvalue⟩ := StmtForm.assign.inj hform'
    obtain rfl := singleton_inj.1 hvalue
    rw [if_neg (by simp [AssignOp.combines?])]
    split
    · simp at hlen
    · have hother : env.isElement stmt.span (.index span base key) = false := by simpa using hother
      simp only [readInto, hother]
      trivial
    · exact ⟨rfl, rfl⟩
  · exact ⟨rfl, rfl⟩

/-- A definition that is a read, or has several targets, is split. -/
theorem replaceStmt_splits (hnames : ∀ target ∈ targets, target.name?.isSome)
    (hsplit : 1 < targets.length ∨ targets.length = 1 ∧ env.isElement stmt.span value = true) :
    Ensures (replaceStmt env scope stmt)
      (fun r s' => ∃ r', r = some r' ∧ Splits env scope stmt targets value s r' s')
      (fun _ => True) s := by
  unfold replaceStmt
  rw [writeElement_of_define hform]
  cases hread : (env.isElement stmt.span value && decide (targets.length ≤ 2)) with
  | true =>
    obtain ⟨helement, hlen⟩ := Bool.and_eq_true_iff.1 hread
    obtain ⟨span, base, key, rfl⟩ := index_of_isElement helement
    obtain ⟨first, second?, rfl⟩ : ∃ first second?, targets = first :: Option.toList second? := by
      match targets, of_decide_eq_true hlen with
      | [], _ => simp at hsplit
      | [first], _ => exact ⟨first, none, rfl⟩
      | [first, second], _ => exact ⟨first, some second, rfl⟩
    have hrule : Ensures (readElement env scope stmt) (fun r s' => ∃ r', r = some r' ∧ Splits env
        scope stmt (first :: second?.toList) (.index span base key) s r' s') (fun _ => True) s := by
      rw [readElement_eq_readInto hform rfl]
      exact readInto_splits hnames helement
    refine hrule.bind ?_
    rintro _ s' ⟨r, rfl, h⟩
    exact ⟨r, rfl, h⟩
  | false =>
    have hlen : 1 < targets.length := by
      rcases hsplit with hlen | ⟨hlen, helement⟩
      · exact hlen
      · simp [hlen, helement] at hread
    refine (readElement_of_other hform hlen hread).bind ?_
    rintro _ _ ⟨rfl, rfl⟩
    refine (splitDefinition_splits hform hlen hnames hread).bind ?_
    rintro _ s' ⟨r, rfl, h⟩
    exact ⟨r, rfl, h⟩

/-- What a visit makes of such a definition. -/
theorem stepAt_splits {plan fuel step s'} (hnames : ∀ target ∈ targets, target.name?.isSome)
    (hsplit : 1 < targets.length ∨ targets.length = 1 ∧ env.isElement stmt.span value = true)
    (hstep : stepAt fuel ⟨env, plan⟩ scope stmt s = .ok (step, s')) :
    ∃ r, step = .revisit (r.before ++ [⟨stmt.id, stmt.span, r.form⟩]) ∧
      Splits env scope stmt targets value s r s' := by
  cases fuel with
  | zero => cases hstep
  | succ fuel =>
    have hrun : Ensures (stepAt (fuel + 1) ⟨env, plan⟩ scope stmt) (fun step s' =>
        ∃ r, step = .revisit (r.before ++ [⟨stmt.id, stmt.span, r.form⟩]) ∧
          Splits env scope stmt targets value s r s') (fun _ => True) s := by
      rw [stepAt_eq_stepOf (by simp [Env.hoists, hform])
        (by simp [Env.splitsPost, hform]), stepOf,
        splitVarDecl_eq_none (by simp [Env.splitsDecl, hform]), pure_bind]
      refine (replaceStmt_splits hform hnames hsplit).bind ?_
      rintro _ s' ⟨r, rfl, h⟩
      exact ⟨r, rfl, h⟩
    exact hrun.of_ok hstep

end

end Rules

/-- At every moment of the lowering of a sequence, the names that count as declared are those its
scope starts with and those of the statements put out so far. A definition of names that is a read
or has several targets, if it is visited then with success, is put behind the declaration of its
variables, in order: its targets that are not among those names, and one name of the supply for each
blank target that receives a value, with the types that the resolver gives. There is no declaration
without a variable, and what stands in the place of the definition defines nothing. -/
theorem definition_declares_new_names (fuel : Nat) (env : Env) :
    OpensScopes fuel env ∧
    ∀ plan outer stmts s m,
      Relation.ReflTransGen (Moment.Next ⟨env, plan⟩) ⟨fuel, [], outer, stmts, s⟩ m →
      lowerSeq fuel ⟨env, plan⟩ outer stmts s = m.finish ⟨env, plan⟩ ∧
      ∀ stmt rest targets value visits step s', m.pending = stmt :: rest →
        stmt.form = .assign targets .define [value] →
        (∀ target ∈ targets, target.name?.isSome) →
        1 < targets.length ∨ targets.length = 1 ∧ env.isElement stmt.span value = true →
        stepAt visits ⟨env, plan⟩ m.declared stmt m.state = .ok (step, s') →
        ∃ vars form,
          step = .revisit (declaration vars stmt.span m.state.nextId ++
            [⟨stmt.id, stmt.span, form⟩]) ∧
          typed vars = newVars env.options (outer ++ m.done.flatMap declaredNames) m.state.discards
            (env.receivers stmt.span targets value) ∧
          s'.discards = m.state.discards + blanks (env.receivers stmt.span targets value) ∧
          ∀ targets' values, form ≠ .assign targets' .define values := by
  refine ⟨opensScopes fuel env, ?_⟩
  intro plan outer stmts s m hreaches
  obtain ⟨hfinish, hdeclared⟩ := Moment.reaches hreaches (append_nil outer).symm
  refine ⟨?_, ?_⟩
  · rw [← hfinish]
    unfold Moment.finish
    cases lowerSeq fuel ⟨env, plan⟩ outer stmts s <;> rfl
  · intro stmt rest targets value visits step s' _ hform hnames hsplit hstep
    obtain ⟨r, rfl, vars, hbefore, hvars, hcount, hdefines⟩ :=
      stepAt_splits hform hnames hsplit hstep
    exact ⟨vars, r.form, by rw [hbefore], hdeclared ▸ hvars, hcount, hdefines⟩

/-- A setting where every result is an integer. -/
def integers : Env where
  resolver := ⟨fun _ _ => none, fun _ _ _ => some (.ofType (.named "int"))⟩
  options := {}
  shapes := []

def counter : Stmt := ⟨0, default, .decl (varDecl [("a", .named "int")] default)⟩

/-- The definition `x, a, b, _ := f()`. -/
def mixed : Stmt :=
  ⟨1, default, .assign (["x", "a", "b", "_"].map (.ident default)) .define
    [.call default (.ident default "f") [] false]⟩

/-- With `x` from around and `a` from before, `b` is new and the last value needs a variable. -/
theorem definition_declares_new_names_of_mixed :
    ∃ m step s' vars form,
      Relation.ReflTransGen (Moment.Next ⟨integers, none⟩)
        ⟨3, [], ["x"], [counter, mixed], { nextId := 2 }⟩ m ∧
      stepAt 1 ⟨integers, none⟩ m.declared mixed m.state = .ok (step, s') ∧
      step = .revisit (declaration vars default 2 ++ [⟨1, default, form⟩]) ∧
      vars.map Prod.fst = ["b", "_unused0"] := by
  have hreaches : Relation.ReflTransGen (Moment.Next ⟨integers, none⟩)
      ⟨3, [], ["x"], [counter, mixed], { nextId := 2 }⟩
      ⟨2, [counter], ["x", "a"], [mixed], { nextId := 2 }⟩ :=
    .single (@Moment.Next.enter _ 2 [] ["x"] counter [mixed] counter [] counter _ _ _ rfl rfl rfl)
  obtain ⟨-, hpoints⟩ := definition_declares_new_names 3 integers
  obtain ⟨-, hmixed⟩ := hpoints none ["x"] [counter, mixed] { nextId := 2 } _ hreaches
  obtain ⟨vars, form, hstep, hvars, -, -⟩ := hmixed mixed [] _ _ 1 _ _ rfl rfl (by decide)
    (.inl (by decide)) rfl
  refine ⟨_, _, _, vars, form, hreaches, rfl, hstep, ?_⟩
  have hnames := congrArg (map Prod.fst) hvars
  rw [typed, map_map] at hnames
  exact hnames.trans (by decide +kernel)

end ScriptLowering.Lowering
