import Mathlib.Data.List.Forall2
import ScriptLowering.Proofs.Extraction
import ScriptLowering.Proofs.Outcome
import ScriptLowering.Proofs.Supply

/-!
# What the rules do

For each rule that the walk tries at a statement: when it applies, what it leaves in the place of
the statement, and which statements it puts in front (`Rewrites`), what it does to the state
(`Effects`), and for which reasons it stops (`Halt.IsOf`). When none applies the statement is
`Idle`, and the state is as it was.

A rule moves expressions about and never looks into the body of a function literal, so the
function literals of a statement are those of the statements that a rule makes of it.
-/

namespace ScriptLowering.Lowering

open List

variable {s s' : State} {x : Stmt} {place : Span}

/-! ## Statements at which no rule applies -/

/-- No rule for a single statement applies at `stmt`, unless a read moves out of it. -/
structure Env.Reduced (env : Env) (stmt : Stmt) : Prop where
  write : writeElement env stmt = none
  read : ∀ targets op span base key, stmt.form = .assign targets op [.index span base key] →
    op.combines? = none → targets.length ≠ 2
  define : ∀ targets value, stmt.form = .assign targets .define [value] → targets.length ≤ 1
  complete : ∀ targets span callee args spread,
    stmt.form = .assign targets .assign [.call span callee args spread] → targets.length ≤ 1
  update : elementUpdate? env stmt = none

/-- No rule for a single statement applies at `stmt`. -/
structure Env.Idle (env : Env) (stmt : Stmt) : Prop extends env.Reduced stmt where
  hoist : ∀ temp, extractForm (env.isElement stmt.span) temp stmt.form = none

/-! ## What the rules leave -/

/-- A target with a name in place of a blank one. -/
def Named (target target' : Expr) : Prop :=
  target' = target ∨ target.isBlank ∧ ∃ name, target' = .ident target.span name

/-- Where a call of the given shape that binds `targets` leaves them: the first, if it stays and
is not blank, and the call with the others passed by address. -/
def completedForm (shape : List Nat) (targets : List Expr) (span : Span) (callee : Expr)
    (args : List Expr) (spread : Bool) : StmtForm :=
  let outs := (outPositions shape).filterMap fun position => targets[position]?.map Expr.address
  let call := Expr.call span callee (args ++ outs) spread
  match (if firstStays shape then targets.head?.filter (!·.isBlank) else none) with
  | some first => .assign [first] .assign [call]
  | none => .expr call

/-- The statement stands at `place` and declares variables without a value. -/
def Declares (place : Span) (stmt : Stmt) : Prop :=
  stmt.span = place ∧ ∃ vars, stmt.form = .decl (varDecl vars place)

/-- The statements stand at `place`; they declare a variable and read the element `base[key]` into
it, which is written at `span` in a call at `callSpan`. -/
def Env.ReadsFirst (env : Env) (place span callSpan : Span) (base key : Expr) (temp : String)
    (stmts : List Stmt) : Prop :=
  ∃ declaration reading, stmts = [declaration, reading] ∧ Declares place declaration ∧
    reading.span = place ∧ reading.form = .expr (env.readCall base key (.ident span temp) callSpan)

/-- What a rule leaves in the place of `stmt`, and in front of it. -/
inductive Rewrites (env : Env) (stmt : Stmt) : Replacement → Prop
  | write {span base key value} :
    stmt.form = .assign [.index span base key] .assign [value] →
    env.isElement stmt.span (.index span base key) →
    Rewrites env stmt ⟨[], .expr (env.writeCall base key value stmt.span)⟩
  | read {op span base key first target before} {second? : Option Expr} :
    stmt.form = .assign (first :: second?.toList) op [.index span base key] →
    env.isElement stmt.span (.index span base key) → op.combines? = none →
    Named first target → (∀ x ∈ before, Declares stmt.span x) → before.length ≤ 1 →
    writeElement env stmt = none → (before ≠ [] → op = .define ∨ first.isBlank = true) →
    Rewrites env stmt ⟨before, env.readForm base key target
      (second?.filter fun target => !target.isBlank) stmt.span⟩
  | define {targets value targets' before} :
    stmt.form = .assign targets .define [value] → 1 < targets.length →
    Forall₂ Named targets targets' → (∀ x ∈ before, Declares stmt.span x) →
    before.length ≤ 1 → (∀ target ∈ targets', target.isBlank = false) →
    Rewrites env stmt ⟨before, .assign targets' .assign [value]⟩
  | complete {targets span callee args spread targets' before} :
    stmt.form = .assign targets .assign [.call span callee args spread] →
    1 < targets.length → Forall₂ Named targets targets' →
    (∀ x ∈ before, Declares stmt.span x) → before.length ≤ 1 →
    (before ≠ [] → targets.any Expr.isBlank = true) →
    Rewrites env stmt ⟨before, completedForm
      (env.callShape (.call span callee args spread) targets.length) targets' span callee args
      spread⟩
  | update {span base key op value temp before} :
    elementUpdate? env stmt = some (.index span base key, op, value) →
    isStable (.index span base key) →
    env.ReadsFirst stmt.span base.span stmt.span base key temp before →
    Rewrites env stmt ⟨before, .expr (env.writeCall base key
      (.binary stmt.span op (.ident base.span temp) value) stmt.span)⟩
  | hoist {n found span base key before} :
    Extracts (env.isElement stmt.span) (env.options.discardName n) stmt.form found →
    found.read = .index span base key →
    env.ReadsFirst stmt.span span span base key (env.options.discardName n) before →
    env.Reduced stmt → Rewrites env stmt ⟨before, found.rest⟩

/-- The form only evaluates or assigns. -/
inductive IsAction : StmtForm → Prop
  | expr {e} : IsAction (.expr e)
  | incDec {e increments} : IsAction (.incDec e increments)
  | assign {targets op values} : IsAction (.assign targets op values)

/-- What a rule can make of a form: another action of an action, or the form without a read. -/
inductive Env.Reforms (env : Env) (place : Span) : StmtForm → StmtForm → Prop
  | action {form form'} : IsAction form → IsAction form' → env.Reforms place form form'
  | without {form x} (n : Nat) :
    Extracts (env.isElement place) (env.options.discardName n) form x →
    env.Reforms place form x.rest

theorem Rewrites.reforms {r} (h : Rewrites env stmt r) :
    env.Reforms stmt.span stmt.form r.form := by
  cases h with
  | write hform | define hform =>
    rw [hform]
    exact .action .assign (by constructor)
  | read hform =>
    rw [hform]
    refine .action .assign ?_
    unfold Env.readForm
    split <;> constructor
  | complete hform =>
    rw [hform]
    refine .action .assign ?_
    unfold completedForm
    split <;> constructor
  | update hupdate =>
    refine .action ?_ .expr
    unfold elementUpdate? at hupdate
    split at hupdate <;> simp_all [IsAction.assign, IsAction.incDec]
  | hoist hextracts => exact .without _ hextracts

/-- Identities were given out, each of the new statements has one of its own, and no return was
settled. -/
structure Issues (s : State) (new : List Stmt) (s' : State) : Prop where
  nextId : s.nextId ≤ s'.nextId
  ids : ∀ x ∈ new, s.nextId ≤ x.id ∧ x.id < s'.nextId
  distinct : (new.map Stmt.id).Nodup
  settled : s'.settled = s.settled

theorem Issues.refl (s : State) : Issues s [] s := ⟨Nat.le_refl _, by simp, .nil, rfl⟩

theorem Issues.trans {s1 s2 new more} (h : Issues s new s1) (h' : Issues s1 more s2) :
    Issues s (new ++ more) s2 where
  nextId := Nat.le_trans h.nextId h'.nextId
  ids := by
    intro x hx
    rcases mem_append.1 hx with hx | hx
    · obtain ⟨hle, hlt⟩ := h.ids x hx
      exact ⟨hle, Nat.lt_of_lt_of_le hlt h'.nextId⟩
    · obtain ⟨hle, hlt⟩ := h'.ids x hx
      exact ⟨Nat.le_trans h.nextId hle, hlt⟩
  distinct := by
    rw [map_append, nodup_append]
    refine ⟨h.distinct, h'.distinct, ?_⟩
    rintro i hi j hj rfl
    obtain ⟨x, hx, rfl⟩ := mem_map.1 hi
    obtain ⟨y, hy, hid⟩ := mem_map.1 hj
    exact Nat.not_le_of_lt (h.ids x hx).2 (hid ▸ (h'.ids y hy).1)
  settled := h'.settled.trans h.settled

/-- One new statement. -/
theorem Issues.one (hx : x.id = s.nextId) : Issues s [x] { s with nextId := s.nextId + 1 } :=
  ⟨Nat.le_succ _, by simp [hx], by simp, rfl⟩

/-- The order of the new statements does not matter. -/
theorem Issues.swap {new more} (h : Issues s (new ++ more) s') : Issues s (more ++ new) s' where
  nextId := h.nextId
  ids x hx := h.ids x (mem_append.2 (mem_append.1 hx).symm)
  distinct := (perm_append_comm.map Stmt.id).nodup_iff.1 h.distinct
  settled := h.settled

/-- Two new statements, one after the other. -/
theorem Issues.pair {y} (hx : x.id = s.nextId) (hy : y.id = s.nextId + 1)
    (hnext : s'.nextId = s.nextId + 2) (hsettled : s'.settled = s.settled) :
    Issues s [x, y] s' where
  nextId := by
    rw [hnext]
    exact Nat.le_add_right _ _
  ids := by
    rw [hnext]
    simp [hx, hy]
  distinct := by simp [hx, hy]
  settled := hsettled

/-- What a rule did to the state when it left `r` in the place of `stmt`: its variables are
accounted for, and it warned at places of the statement only. -/
structure Effects (env : Env) (stmt : Stmt) (r : Replacement) (s s' : State) : Prop
    extends Issues s r.before s' where
  names : Accounts env.options stmt.form.ownNames r.names s.discards s'.discards
  warnings : ∀ norm : Norm, stmt.Fits norm → ∀ d ∈ s'.warnings, d ∈ s.warnings ∨ norm.span d.span

/-- A step at `stmt` stopped with a report that every norm of the statement admits. -/
def Halt.IsOf (stmt : Stmt) : Halt → Prop
  | .fatal d => ∀ norm : Norm, stmt.Fits norm → norm.report d
  | .outOfFuel => False

theorem Halt.IsOf.isFatal {stmt} {r : Halt} (h : r.IsOf stmt) : r.IsFatal := by
  cases r with
  | fatal => trivial
  | outOfFuel => exact h

/-- A type that is not known at `span` is a reason to stop. -/
def Halts (span : Span) (halt : Halt → Prop) : Prop :=
  ∀ d : Diagnostic, d.cause = .typeResolution → d.span = span → halt (.fatal d)

theorem halts_of_fits {stmt span} (h : ∀ norm : Norm, stmt.Fits norm → norm.span span) :
    Halts span (Halt.IsOf stmt) := by
  rintro d hd rfl norm hstmt
  exact norm.unknown hd (h norm hstmt)

/-- How a rule ended that was tried from the state `s`: it did not apply, since `idle` holds and
nothing happened, or it left a replacement. -/
def Outcome (env : Env) (stmt : Stmt) (s : State) (idle : Prop) (r : Option Replacement)
    (s' : State) : Prop :=
  match r with
  | none => s' = s ∧ idle
  | some r => Rewrites env stmt r ∧ Effects env stmt r s s'

/-! ## Targets -/

/-- What is put in the place of a target, with what is declared for it: nothing, or a variable of a
type that has to be known. A blank target gets the next name of the supply. -/
inductive Binds (options : Options) (n : Nat) (target : Expr) :
    Option (Option ResolvedType) → Expr → List Var → Nat → Prop
  | blank {type} : target.isBlank = true →
    Binds options n target (some (some type)) (.ident target.span (options.discardName n))
      [(options.discardName n, type.annotation)] (n + 1)
  | new {type} : target.isBlank = false →
    Binds options n target (some (some type)) target [(target.boundName, type.annotation)] n
  | old : target.isBlank = false → Binds options n target none target [] n

/-- Targets one after the other. -/
inductive BindsAll (options : Options) : (n : Nat) → List Expr →
    List (Option (Option ResolvedType)) → List Expr → List Var → Nat → Prop
  | nil {n} : BindsAll options n [] [] [] [] n
  | cons {n n₁ n₂ target want target' vars targets wants targets' more} :
    Binds options n target want target' vars n₁ →
    BindsAll options n₁ targets wants targets' more n₂ →
    BindsAll options n (target :: targets) (want :: wants) (target' :: targets') (vars ++ more) n₂

/-- Whether a read of `value` declares a variable for `target`, and of which type. -/
def Env.readWant (env : Env) (declared : List String) (defines : Bool) (value target : Expr)
    (place : Span) : Option (Option ResolvedType) :=
  if target.isBlank || defines && !(target.name?.any declared.contains) then
    some (env.resolver.typeOf value place)
  else none

/-- Whether a definition declares a variable for `target`, which receives a value of the type
`result`. -/
def Env.defineWant (env : Env) (declared : List String) (result : Option ResolvedType)
    (place : Span) (target : Expr) : Option (Option ResolvedType) :=
  if target.isBlank then some result
  else if target.name?.any fun name => !declared.contains name then
    some (env.resolver.typeOf target place <|> result)
  else none

/-- Whether a definition by `value` declares variables for its targets. -/
def Env.defineWants (env : Env) (declared : List String) (value : Expr) (place : Span) :
    (position : Nat) → List Expr → List (Option (Option ResolvedType))
  | _, [] => []
  | position, target :: targets =>
    env.defineWant declared (env.resolver.resultType value position place) place target ::
      env.defineWants declared value place (position + 1) targets

section Targets

variable {options : Options} {n m : Nat} {target target' : Expr} {vars : List Var}
  {want : Option (Option ResolvedType)} {targets targets' : List Expr}
  {wants : List (Option (Option ResolvedType))}

theorem Binds.named (h : Binds options n target want target' vars m) : Named target target' := by
  cases h with
  | blank hblank => exact .inr ⟨hblank, _, rfl⟩
  | new | old => exact .inl rfl

theorem Binds.accounts (h : Binds options n target want target' vars m) :
    Accounts options [target.boundName] (vars.map Prod.fst) n m := by
  cases h with
  | blank => exact .take _ _
  | new => exact .refl _ _
  | old => exact .nil _ _

/-- A synthesized name ends in a digit. -/
theorem isBlank_discardName (options : Options) (span : Span) (n : Nat) :
    (Expr.ident span (options.discardName n)).isBlank = false := by
  have hne : options.discardName n ≠ "_" := by
    intro h
    have hlist := congrArg (fun name => name.toList.getLast?) h
    have hdigits : (options.discardName n).toList = options.discardPrefix.toList ++
        Nat.toDigits 10 n := by
      simp [Options.discardName, toString]
    obtain ⟨c, hc⟩ : ∃ c, (Nat.toDigits 10 n).getLast? = some c :=
      Option.isSome_iff_exists.1 (by simp [getLast?_isSome])
    have hlast : (options.discardName n).toList.getLast? = some c := by
      rw [hdigits, getLast?_append, hc, Option.some_or]
    have hdigit := Nat.isDigit_of_mem_toDigits (by decide) (by decide) (mem_of_getLast? hc)
    obtain rfl : c = '_' := by simpa [hlast] using hlist
    exact absurd hdigit (by decide)
  simpa [Expr.isBlank, Expr.name?] using hne

theorem Binds.isBlank (h : Binds options n target want target' vars m) :
    target'.isBlank = false := by
  cases h with
  | blank => exact isBlank_discardName _ _ _
  | new hblank | old hblank => exact hblank

theorem BindsAll.named (h : BindsAll options n targets wants targets' vars m) :
    Forall₂ Named targets targets' := by
  induction h with
  | nil => exact .nil
  | cons h _ ih => exact .cons h.named ih

theorem BindsAll.accounts (h : BindsAll options n targets wants targets' vars m) :
    Accounts options (targets.map Expr.boundName) (vars.map Prod.fst) n m := by
  induction h with
  | nil => exact .refl _ _
  | cons h _ ih =>
    rw [map_append]
    exact h.accounts.append ih

theorem BindsAll.isBlank (h : BindsAll options n targets wants targets' vars m) :
    ∀ target ∈ targets', target.isBlank = false := by
  induction h with
  | nil => simp
  | cons h _ ih => exact forall_mem_cons.2 ⟨h.isBlank, ih⟩

end Targets

/-- The declaration of the variables, if there are any. -/
def declaration (vars : List Var) (span : Span) (id : NodeId) : List Stmt :=
  if vars.isEmpty then [] else [⟨id, span, .decl (varDecl vars span)⟩]

section Declaration

variable {vars : List Var} {span : Span}

theorem declares_of_mem {id} (h : x ∈ declaration vars span id) : Declares span x := by
  unfold declaration at h
  split at h
  · simp at h
  · obtain rfl := mem_singleton.1 h
    exact ⟨rfl, vars, rfl⟩

theorem declaration_length (vars : List Var) (span : Span) (id : NodeId) :
    (declaration vars span id).length ≤ 1 := by
  unfold declaration
  split <;> simp

theorem vars_ne_nil {id} (h : declaration vars span id ≠ []) : vars ≠ [] := by
  rintro rfl
  exact h rfl

theorem namesOf_declaration (vars : List Var) (span : Span) (id : NodeId) :
    namesOf (declaration vars span id) = vars.map Prod.fst := by
  unfold declaration
  split
  · rename_i hempty
    rw [isEmpty_iff.1 hempty]
    rfl
  · simp

theorem issues_declaration (vars : List Var) (span : Span)
    (hnext : s'.nextId = s.nextId + (declaration vars span s.nextId).length)
    (hsettled : s'.settled = s.settled) : Issues s (declaration vars span s.nextId) s' := by
  unfold declaration at hnext ⊢
  split
  · rename_i hempty
    exact ⟨hnext ▸ Nat.le_add_right _ _, by simp, .nil, hsettled⟩
  · rename_i hempty
    rw [if_neg hempty] at hnext
    exact ⟨hnext ▸ Nat.le_add_right _ _, by simp [hnext], by simp, hsettled⟩

end Declaration

section Rules

variable {env : Env} {stmt : Stmt} {s : State} {halt : Halt → Prop}

theorem ensures_declareAny (vars : List Var) (span : Span) :
    Ensures (declareAny vars span) (fun xs s' => xs = declaration vars span s.nextId ∧
      s' = { s with nextId := s.nextId + xs.length }) halt s := by
  unfold declareAny declaration
  split
  · exact ⟨rfl, rfl⟩
  · exact ⟨rfl, rfl⟩

/-- A rule takes names from the supply and declares variables in front. -/
theorem Effects.declare {vars form n}
    (h : Accounts env.options stmt.form.ownNames (vars.map Prod.fst) s.discards n)
    (hform : form.ownNames = []) :
    Effects env stmt ⟨declaration vars stmt.span s.nextId, form⟩ s { s with
      discards := n
      nextId := s.nextId + (declaration vars stmt.span s.nextId).length } where
  toIssues := issues_declaration vars stmt.span rfl rfl
  names := by rwa [Replacement.names, namesOf_declaration, hform, append_nil]
  warnings _ _ _ hd := .inl hd

theorem ensures_orTry {idle idle' : Prop} {rule result s1}
    (hresult : Outcome env stmt s idle result s1)
    (h : idle → ∀ s, Ensures rule (Outcome env stmt s idle') (Halt.IsOf stmt) s) :
    Ensures (orTry result rule) (Outcome env stmt s (idle ∧ idle')) (Halt.IsOf stmt) s1 := by
  cases result with
  | some r => exact hresult
  | none =>
    obtain ⟨rfl, hidle⟩ := hresult
    refine (h hidle s1).mono ?_ fun _ h => h
    intro r s' hr
    cases r with
    | none => exact ⟨hr.1, hidle, hr.2⟩
    | some r => exact hr

/-- The parts of an assignment. -/
theorem fits_assign {norm targets values op} (h : stmt.Fits norm)
    (hform : stmt.form = .assign targets op values) :
    (∀ t ∈ targets, t.Fits norm) ∧ ∀ v ∈ values, v.Fits norm := by
  have hparts := ((Stmt.fits_iff stmt).1 h).2
  rw [hform] at hparts
  exact ⟨(exprsFit_iff _).1 hparts.1, (exprsFit_iff _).1 hparts.2⟩

theorem writeElement_outcome :
    Outcome env stmt s (writeElement env stmt = none) (writeElement env stmt) s := by
  cases h : writeElement env stmt with
  | none => exact ⟨rfl, rfl⟩
  | some r =>
    unfold writeElement at h
    split at h
    · rename_i span base key value hform
      split at h
      · rename_i helement
        cases h
        exact ⟨.write hform helement, .refl s, .nil _ _, fun _ _ _ hd => .inl hd⟩
      · contradiction
    · contradiction

theorem ensures_readTarget (declared : List String) (defines : Bool) (value target : Expr)
    (place : Span) (hhalt : Halts value.span halt) :
    Ensures (readTarget env declared defines value target place)
      (fun p s' => ∃ n, s' = { s with discards := n } ∧ Binds env.options s.discards target
        (env.readWant declared defines value target place) p.1 p.2 n) halt s := by
  unfold readTarget Env.readWant
  by_cases hblank : target.isBlank = true
  · simp only [hblank, if_true, Bool.true_or, ensures_bind, ensures_requireType]
    cases env.resolver.typeOf value place with
    | none => exact hhalt _ rfl rfl
    | some type => exact ⟨_, rfl, .blank hblank⟩
  · have hblank : target.isBlank = false := by simpa using hblank
    rw [hblank, if_neg Bool.false_ne_true, Bool.false_or]
    split
    · simp only [ensures_bind, ensures_requireType]
      cases env.resolver.typeOf value place with
      | none => exact hhalt _ rfl rfl
      | some type => exact ⟨_, rfl, .new hblank⟩
    · exact ⟨_, rfl, .old hblank⟩

theorem flagVars_names (declared : List String) (defines : Bool) (flag? : Option Expr) :
    ((flagVars declared defines flag?).map Prod.fst).Sublist
      (if defines then flag?.toList.map Expr.boundName else []) := by
  cases flag? with
  | none => exact nil_sublist _
  | some flag =>
    cases hname : flag.name? with
    | none => simp [flagVars, hname]
    | some name =>
      simp only [flagVars, Option.bind_some, hname, Expr.boundName, Option.toList_some,
        map_cons, map_nil, Option.getD_some]
      cases defines <;> cases declared.contains name <;> simp

/-- A read declares variables only for a definition or for a blank target. -/
theorem read_declares {options declared} {op : AssignOp} {n m value first target vars flag?}
    (h : Binds options n first (env.readWant declared (op == .define) value first place) target vars
      m) (hvars : vars ++ flagVars declared (op == .define) flag? ≠ []) :
    op = .define ∨ first.isBlank = true := by
  by_contra hnone
  obtain ⟨hop, hblank⟩ := not_or.1 hnone
  have hdefines : (op == .define) = false := by simpa using hop
  rw [hdefines] at h hvars
  have hflags : flagVars declared false flag? = [] :=
    map_eq_nil_iff.1 (sublist_nil.1 (flagVars_names declared false flag?))
  rw [hflags, append_nil] at hvars
  generalize hwant : env.readWant declared false value first place = want at h
  cases h with
  | blank h => exact hblank h
  | new => simp [Env.readWant, hblank] at hwant
  | old => exact hvars rfl

/-- The variables of a read are accounted for by the targets that it defines. -/
theorem read_accounts {options declared op n m value first target vars} (second? : Option Expr)
    (values : List Expr)
    (h : Binds options n first (env.readWant declared (op == .define) value first place) target vars
      m) : Accounts options (StmtForm.assign (first :: second?.toList) op values).ownNames
      ((vars ++ flagVars declared (op == .define)
        (second?.filter fun target => !target.isBlank)).map Prod.fst) n m := by
  have hflags := flagVars_names declared (op == .define)
    (second?.filter fun target => !target.isBlank)
  have hsecond : (second?.filter fun target => !target.isBlank).toList.Sublist second?.toList := by
    cases second? with
    | none => exact .refl _
    | some second => cases second.isBlank <;> simp
  rw [map_append]
  by_cases hop : op = .define
  · subst hop
    refine h.accounts.append (.of_le _ fun name => ?_)
    exact (hflags.trans (hsecond.map _)).count_le name
  · have hdefines : (op == .define) = false := by simpa using hop
    rw [hdefines] at h hflags ⊢
    rw [sublist_nil.1 hflags, append_nil]
    -- without a definition only a blank target is declared, under a name of the supply
    generalize hwant : env.readWant declared false value first place = want at h
    cases h with
    | blank => exact .take _ _
    | new hblank => simp [Env.readWant, hblank] at hwant
    | old => exact .nil _ _

theorem readInto_outcome (declared : List String) {op span} {base key first : Expr}
    (second? : Option Expr)
    (hform : stmt.form = .assign (first :: second?.toList) op [.index span base key])
    (hop : op.combines? = none) (hwrite : writeElement env stmt = none) :
    Ensures (readInto env declared stmt (op == .define) (.index span base key) base key first
      second?) (Outcome env stmt s (second? = none)) (Halt.IsOf stmt) s := by
  have hvalue (norm : Norm) (h : stmt.Fits norm) : (Expr.index span base key).Fits norm :=
    (fits_assign h hform).2 _ (by simp)
  unfold readInto
  split
  · rename_i helement
    refine (ensures_readTarget declared _ _ first stmt.span
      (halts_of_fits fun norm h => (hvalue norm h).span)).bind ?_
    rintro p _ ⟨n, rfl, hbinds⟩
    refine (ensures_declareAny _ stmt.span).bind ?_
    rintro _ _ ⟨rfl, rfl⟩
    refine ⟨.read hform helement hop hbinds.named (fun _ => declares_of_mem)
      (declaration_length ..) hwrite fun h => read_declares hbinds (vars_ne_nil h),
      .declare (hform ▸ read_accounts second? _ hbinds) ?_⟩
    cases second?.filter fun target => !target.isBlank <;> rfl
  · cases second? with
    | none => exact ⟨rfl, rfl⟩
    | some second => exact fun norm h => norm.unknown rfl (hvalue norm h).2.1.span

theorem readElement_outcome (declared : List String) (hwrite : writeElement env stmt = none)
    (s : State) :
    Ensures (readElement env declared stmt)
      (Outcome env stmt s (∀ targets op span base key,
        stmt.form = .assign targets op [.index span base key] → op.combines? = none →
        targets.length ≠ 2)) (Halt.IsOf stmt) s := by
  unfold readElement
  split
  · rename_i targets op span base key hform
    -- nothing is left to show when the form is known to be another one
    have hidle (h : op.combines? = none → targets.length ≠ 2) : ∀ targets op span base key,
        stmt.form = .assign targets op [.index span base key] → op.combines? = none →
        targets.length ≠ 2 := by
      intro targets' op' span' base' key' hform' hop
      rw [hform] at hform'
      obtain ⟨rfl, rfl, -⟩ := StmtForm.assign.inj hform'
      exact h hop
    split
    · rename_i hop
      exact ⟨rfl, hidle fun h => by simp [h] at hop⟩
    · rename_i hop
      have hop : op.combines? = none := by simpa using hop
      split
      · rename_i first
        refine (readInto_outcome declared none hform hop hwrite).mono ?_ fun _ h => h
        intro r s' hr
        cases r with
        | none => exact ⟨hr.1, hidle fun _ => by simp⟩
        | some r => exact hr
      · rename_i first second
        refine (readInto_outcome declared (some second) hform hop hwrite).mono ?_ fun _ h => h
        intro r s' hr
        cases r with
        | none => exact absurd hr.2 (by simp)
        | some r => exact hr
      · rename_i hone htwo
        refine ⟨rfl, hidle fun _ hlen => ?_⟩
        obtain ⟨first, second, rfl⟩ := length_eq_two.1 hlen
        exact htwo first second rfl
  · rename_i hform
    refine ⟨rfl, ?_⟩
    intro targets op span base key h
    exact absurd h (hform targets op span base key)

theorem ensures_defineTarget (declared : List String) (result : Option ResolvedType) (place : Span)
    {target} (hhalt : Halts target.span halt) :
    Ensures (defineTarget env declared result place target)
      (fun p s' => ∃ n, s' = { s with discards := n } ∧ Binds env.options s.discards target
        (env.defineWant declared result place target) p.1 p.2 n) halt s := by
  unfold defineTarget Env.defineWant
  by_cases hblank : target.isBlank = true
  · simp only [hblank, if_true, ensures_bind, ensures_requireType]
    cases result with
    | none => exact hhalt _ rfl rfl
    | some type => exact ⟨_, rfl, .blank hblank⟩
  · have hblank : target.isBlank = false := by simpa using hblank
    rw [hblank, if_neg Bool.false_ne_true, if_neg Bool.false_ne_true]
    cases hname : target.name? with
    | none => exact ⟨_, rfl, .old hblank⟩
    | some name =>
      have hbound : target.boundName = name := by simp [Expr.boundName, hname]
      cases hdeclared : declared.contains name with
      | true =>
        simp only [hdeclared, if_true, Option.any_some, Bool.not_true, Bool.false_eq_true, if_false]
        exact ⟨_, rfl, .old hblank⟩
      | false =>
        simp only [hdeclared, Bool.false_eq_true, if_false, ensures_bind, ensures_requireType,
          Option.any_some, Bool.not_false, if_true]
        cases env.resolver.typeOf target place <|> result with
        | none => exact hhalt _ rfl rfl
        | some type => exact ⟨_, rfl, hbound ▸ .new hblank⟩

theorem ensures_defineTargets (declared : List String) (value : Expr) (place : Span)
    (position : Nat) {targets} (hhalt : ∀ t ∈ targets, Halts t.span halt) :
    Ensures (defineTargets env declared value place position targets)
      (fun p s' => ∃ n, s' = { s with discards := n } ∧ BindsAll env.options s.discards targets
        (env.defineWants declared value place position targets) p.1 p.2 n) halt s := by
  induction targets generalizing position s with
  | nil => exact ⟨_, rfl, .nil⟩
  | cons target targets ih =>
    obtain ⟨htarget, htargets⟩ := forall_mem_cons.1 hhalt
    refine (ensures_defineTarget declared _ place htarget).bind ?_
    rintro p _ ⟨n, rfl, hbinds⟩
    refine (ih (position + 1) htargets).bind ?_
    rintro q _ ⟨m, rfl, hall⟩
    exact ⟨m, rfl, .cons hbinds hall⟩

theorem splitDefinition_outcome (declared : List String) (s : State) :
    Ensures (splitDefinition env declared stmt)
      (Outcome env stmt s (∀ targets value, stmt.form = .assign targets .define [value] →
        targets.length ≤ 1)) (Halt.IsOf stmt) s := by
  unfold splitDefinition
  split
  · rename_i targets value hform
    split
    · rename_i hlen
      refine ⟨rfl, ?_⟩
      intro targets' value' hform'
      rw [hform] at hform'
      obtain ⟨rfl, -⟩ := StmtForm.assign.inj hform'
      exact hlen
    · rename_i hlen
      refine (ensures_defineTargets declared value stmt.span 0 fun t ht =>
        halts_of_fits fun norm h => ((fits_assign h hform).1 t ht).span).bind ?_
      rintro p _ ⟨n, rfl, hbinds⟩
      refine (ensures_declareAny _ stmt.span).bind ?_
      rintro _ _ ⟨rfl, rfl⟩
      exact ⟨.define hform (by omega) hbinds.named (fun _ => declares_of_mem)
        (declaration_length ..) hbinds.isBlank, .declare (by rw [hform]; exact hbinds.accounts) rfl⟩
  · rename_i hform
    refine ⟨rfl, ?_⟩
    intro targets value h
    exact absurd h (hform targets value)

theorem Named.refl (target : Expr) : Named target target := .inl rfl

/-- Naming one more target leaves the others as they are. -/
theorem forall₂_named_set {targets targets' position target}
    (hget : targets[position]? = some target) (hblank : target.isBlank) (name : String)
    (h : Forall₂ Named (targets.set position (.ident target.span name)) targets') :
    Forall₂ Named targets targets' := by
  induction targets generalizing position targets' with
  | nil => simp at hget
  | cons first rest ih =>
    cases position with
    | zero =>
      obtain rfl : first = target := by simpa using hget
      obtain ⟨target', rest', hnamed, hrest, rfl⟩ := forall₂_cons_left_iff.1 h
      refine .cons (.inr ⟨hblank, ?_⟩) hrest
      rcases hnamed with rfl | ⟨-, name', rfl⟩
      · exact ⟨name, rfl⟩
      · exact ⟨name', rfl⟩
    | succ position =>
      obtain ⟨first', rest', hnamed, hrest, rfl⟩ := forall₂_cons_left_iff.1 h
      exact .cons hnamed (ih (by simpa using hget) hrest)

theorem ensures_nameBlanks (call : Expr) (place : Span) {targets} (positions : List Nat)
    (hhalt : ∀ t ∈ targets, Halts t.span halt) :
    Ensures (nameBlanks env call place targets positions)
      (fun p s' => ∃ n, s' = { s with discards := n } ∧ Forall₂ Named targets p.1 ∧
        Accounts env.options [] (p.2.map Prod.fst) s.discards n ∧
        (p.2 ≠ [] → targets.any Expr.isBlank = true)) halt s := by
  induction positions generalizing targets s with
  | nil => exact ⟨_, rfl, forall₂_same.2 fun _ _ => .refl _, .nil _ _, by simp⟩
  | cons position positions ih =>
    unfold nameBlanks
    split
    · exact ih hhalt
    · rename_i target hget
      have htarget := hhalt target (mem_of_getElem? hget)
      split
      · rename_i hblank
        simp only [ensures_bind, ensures_requireType, ensures_newName]
        split
        · refine (ih fun t ht => ?_).mono ?_ fun _ h => h
          · rcases mem_or_eq_of_mem_set ht with ht | rfl
            · exact hhalt t ht
            · exact htarget
          · rintro p _ ⟨n, rfl, hnamed, haccounts, -⟩
            exact ⟨n, rfl, forall₂_named_set hget hblank _ hnamed,
              (Accounts.take [] s.discards).append haccounts,
              fun _ => any_eq_true.2 ⟨target, mem_of_getElem? hget, hblank⟩⟩
        · exact htarget _ rfl rfl
      · exact ih hhalt

theorem completeCall_outcome (s : State) :
    Ensures (completeCall env stmt)
      (Outcome env stmt s (∀ targets span callee args spread,
        stmt.form = .assign targets .assign [.call span callee args spread] →
        targets.length ≤ 1)) (Halt.IsOf stmt) s := by
  unfold completeCall
  split
  · rename_i targets span callee args spread hform
    split
    · rename_i hlen
      refine ⟨rfl, ?_⟩
      intro targets' span' callee' args' spread' hform'
      rw [hform] at hform'
      obtain ⟨rfl, -⟩ := StmtForm.assign.inj hform'
      exact hlen
    · rename_i hlen
      refine (ensures_nameBlanks _ stmt.span _ fun t ht =>
        halts_of_fits fun norm h => ((fits_assign h hform).1 t ht).span).bind ?_
      rintro p _ ⟨n, rfl, hnamed, haccounts, hblank⟩
      refine (ensures_declareAny _ stmt.span).bind ?_
      rintro _ _ ⟨rfl, rfl⟩
      refine ⟨.complete hform (by omega) hnamed (fun _ => declares_of_mem) (declaration_length ..)
        fun h => hblank (vars_ne_nil h), .declare (by rw [hform]; exact haccounts) ?_⟩
      split <;> rfl
  · rename_i hform
    refine ⟨rfl, ?_⟩
    intro targets span callee args spread h
    exact absurd h (hform targets span callee args spread)

theorem index_of_isElement {e} (h : env.isElement place e = true) :
    ∃ span base key, e = .index span base key := by
  cases e with
  | index span base key => exact ⟨span, base, key, rfl⟩
  | _ => simp [Env.isElement, Resolver.isContainerRead] at h

/-- A compound update is of an element. -/
theorem elementUpdate?_index {target value op}
    (h : elementUpdate? env stmt = some (target, op, value)) :
    ∃ span base key, target = .index span base key := by
  unfold elementUpdate? at h
  split at h
  · split at h
    · rename_i helement
      cases h
      exact index_of_isElement helement
    · contradiction
  · obtain ⟨op', -, h⟩ := Option.bind_eq_some_iff.1 h
    split at h
    · rename_i helement
      cases h
      exact index_of_isElement helement
    · contradiction
  · contradiction

theorem elementUpdate?_fits {norm target value op} (h : stmt.Fits norm)
    (hu : elementUpdate? env stmt = some (target, op, value)) :
    target.Fits norm ∧ value.Fits norm := by
  unfold elementUpdate? at hu
  split at hu
  · rename_i e increments hform
    have he := ((Stmt.fits_iff stmt).1 h).2
    rw [hform] at he
    split at hu
    · cases hu
      exact ⟨he, Expr.Fits.span he, nofun⟩
    · cases hu
  · rename_i t op' v hform
    obtain ⟨htargets, hvalues⟩ := fits_assign h hform
    obtain ⟨op'', -, hu⟩ := Option.bind_eq_some_iff.1 hu
    split at hu
    · cases hu
      exact ⟨forall_mem_singleton.1 htargets, forall_mem_singleton.1 hvalues⟩
    · cases hu
  · cases hu

theorem updateElement_outcome (s : State) :
    Ensures (updateElement env stmt) (Outcome env stmt s (elementUpdate? env stmt = none))
      (Halt.IsOf stmt) s := by
  unfold updateElement
  cases hupdate : elementUpdate? env stmt with
  | none => exact ⟨rfl, rfl⟩
  | some p =>
    obtain ⟨target, op, value⟩ := p
    obtain ⟨span, base, key, rfl⟩ := elementUpdate?_index hupdate
    have hspan (norm : Norm) (h : stmt.Fits norm) : norm.span span :=
      (elementUpdate?_fits h hupdate).1.1
    dsimp only
    split
    · refine fun norm h => norm.excused _ (.inr rfl) ?_ (hspan norm h)
      intro place hreport
      simpa [Diagnostic.withNote, unplacedPost] using congrArg Diagnostic.notes hreport
    · rename_i hstable
      simp only [ensures_bind, ensures_requireType]
      split
      · simp only [ensures_bind, ensures_newName, ensures_declareVars, ensures_newStmt,
          ensures_pure]
        exact ⟨.update hupdate (by simpa using hstable) ⟨_, _, rfl, ⟨rfl, _, rfl⟩, rfl, rfl⟩,
          .pair rfl rfl rfl rfl, .take _ _, fun _ _ _ hd => .inl hd⟩
      · exact fun norm h => norm.unknown rfl (hspan norm h)

/-- A target of a statement keeps its name when a read is taken out of it. -/
theorem extractTarget_boundName {temp target x}
    (h : extractTarget (env.isElement place) temp target = some x) :
    x.rest.boundName = target.boundName := by
  obtain ⟨hread, hswaps, hindex⟩ := extractTarget_swaps h
  rcases hswaps.name? with ⟨htarget, hrest⟩ | ⟨htarget, hrest⟩
  · obtain ⟨span, base, key, heq⟩ := index_of_isElement hread
    rcases hindex with hindex | ⟨_, _, _, hindex⟩
    · exact absurd (htarget.trans heq) (hindex span base key)
    · rw [hindex] at hrest
      contradiction
  · rw [Expr.boundName, hrest, Expr.boundName, htarget]

/-- Taking a read out of a statement leaves its declarations. -/
theorem Extracts.ownNames {temp form x} (h : Extracts (env.isElement place) temp form x) :
    x.rest.ownNames = form.ownNames := by
  cases h with
  | targets h =>
    obtain ⟨-, l, target, y, r, rfl, rfl, hy⟩ := extractTargets_swaps h
    simp [Extraction.map, StmtForm.ownNames, extractTarget_boundName hy]
  | decl h =>
    obtain ⟨-, l, names, type, values, y, r, rfl, rfl, -⟩ := extractSpecs_swaps h
    simp [Extraction.map, Spec.names]
  | _ => rfl

theorem hoistRead_outcome (hreduced : env.Reduced stmt) (s : State) :
    Ensures (hoistRead env stmt)
      (Outcome env stmt s (∀ temp, extractForm (env.isElement stmt.span) temp stmt.form = none))
      (Halt.IsOf stmt) s := by
  unfold hoistRead
  rw [ensures_bind, ensures_get]
  dsimp only
  cases hfound : extractForm (env.isElement stmt.span) (env.options.discardName s.discards)
      stmt.form with
  | none => exact ⟨rfl, fun _ => extractForm_eq_none.2 (extractForm_eq_none.1 hfound)⟩
  | some found =>
    have hextracts := extracts_of_extractForm hfound
    obtain ⟨span, base, key, hread⟩ := index_of_isElement hextracts.swaps.1
    have hspan (norm : Norm) (h : stmt.Fits norm) : norm.span found.read.span :=
      (hextracts.fits ((Stmt.fits_iff stmt).1 h).2).1.span
    have hnames : Accounts env.options stmt.form.ownNames
        ([env.options.discardName s.discards] ++ found.rest.ownNames) s.discards
        (s.discards + 1) := by
      rw [hextracts.ownNames]
      exact (Accounts.take [] s.discards).append (.refl stmt.form.ownNames _)
    simp only [ensures_bind, ensures_newName, ensures_requireType]
    split
    · rw [hread] at hspan ⊢
      split
      · simp only [ensures_bind, ensures_warn, ensures_declareVars, ensures_newStmt, ensures_pure]
        refine ⟨.hoist hextracts hread ⟨_, _, rfl, ⟨rfl, _, rfl⟩, rfl, rfl⟩ hreduced,
          .pair rfl rfl rfl rfl, hnames, fun norm h d hd => ?_⟩
        rcases mem_append.1 hd with hd | hd
        · exact .inl hd
        · obtain rfl := mem_singleton.1 hd
          exact .inr (hspan norm h)
      · simp only [ensures_bind, ensures_declareVars, ensures_newStmt, ensures_pure]
        exact ⟨.hoist hextracts hread ⟨_, _, rfl, ⟨rfl, _, rfl⟩, rfl, rfl⟩ hreduced,
          .pair rfl rfl rfl rfl, hnames, fun _ _ _ hd => .inl hd⟩
    · exact fun norm h => norm.unknown rfl (hspan norm h)

/-- The rules for a single statement either do not apply, and nothing happens, or leave one of
the replacements described by `Rewrites`. -/
theorem replaceStmt_outcome (declared : List String) (s : State) :
    Ensures (replaceStmt env declared stmt) (Outcome env stmt s (env.Idle stmt)) (Halt.IsOf stmt)
      s := by
  refine (ensures_orTry writeElement_outcome (readElement_outcome declared)).bind ?_
  intro r1 s1 h1
  refine (ensures_orTry h1 fun _ => splitDefinition_outcome declared).bind ?_
  intro r2 s2 h2
  refine (ensures_orTry h2 fun _ => completeCall_outcome).bind ?_
  intro r3 s3 h3
  refine (ensures_orTry h3 fun _ => updateElement_outcome).bind ?_
  intro r4 s4 h4
  refine (ensures_orTry h4 fun hidle => hoistRead_outcome ?_).mono ?_ fun _ h => h
  · obtain ⟨⟨⟨⟨hwrite, hread⟩, hdefine⟩, hcomplete⟩, hupdate⟩ := hidle
    exact ⟨hwrite, hread, hdefine, hcomplete, hupdate⟩
  · intro r s' h
    cases r with
    | some r => exact h
    | none =>
      obtain ⟨rfl, ⟨⟨⟨⟨hwrite, hread⟩, hdefine⟩, hcomplete⟩, hupdate⟩, hhoist⟩ := h
      exact ⟨rfl, ⟨hwrite, hread, hdefine, hcomplete, hupdate⟩, hhoist⟩

end Rules

end ScriptLowering.Lowering
