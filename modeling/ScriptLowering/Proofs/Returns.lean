import ScriptLowering.Proofs.Nesting

/-!
# Every return is lowered once

In a function whose results moved, the returns of the lowered body are those of the source, one by
one and in the same order. In front of a return that had all values, and in front of a bare one
where the results had names, stand the stores of the values that moved, one for each output
parameter. A return in a function literal returns as many values as before.

The stores are told from assignments of the source by their identities, which the source does not
use.
-/

namespace ScriptLowering

open List

variable {values : List Expr} {span : Span} {y : Stmt} {before stores : List Stmt}
  {r : Replacement}

/-! ## Returns and what stands in front of them -/

/-- A return statement and, if it is a member of a sequence, the statements in front of it there,
the nearest first. -/
structure ReturnSite where
  before : Option (List Stmt)
  stmt : Stmt

mutual

/-- The returns in a statement outside function literals, in order. `before` stands in front of the
statement itself. What stands in a header or follows an `else` is no member of a sequence; the
grammar has no return there. -/
def Stmt.sites (before : Option (List Stmt)) : Stmt → List ReturnSite
  | ⟨id, span, .ret values⟩ => [⟨before, ⟨id, span, .ret values⟩⟩]
  | ⟨_, _, .labeled _ stmt⟩ => stmt.sites none
  | ⟨_, _, .block ⟨stmts, _⟩⟩ | ⟨_, _, .range _ _ _ _ ⟨stmts, _⟩⟩ => sitesOfStmts [] stmts
  | ⟨_, _, .cond init _ ⟨stmts, _⟩ otherwise⟩ =>
    sitesOfStmt? init ++ sitesOfStmts [] stmts ++ sitesOfStmt? otherwise
  | ⟨_, _, .switch init _ clauses⟩ => sitesOfStmt? init ++ sitesOfCases clauses
  | ⟨_, _, .typeSwitch init guard clauses⟩ =>
    sitesOfStmt? init ++ guard.sites none ++ sitesOfCases clauses
  | ⟨_, _, .select clauses⟩ => sitesOfComms clauses
  | ⟨_, _, .loop init _ post ⟨stmts, _⟩⟩ =>
    sitesOfStmt? init ++ sitesOfStmt? post ++ sitesOfStmts [] stmts
  | ⟨_, _, .decl _⟩ | ⟨_, _, .empty⟩ | ⟨_, _, .expr _⟩ | ⟨_, _, .send ..⟩ | ⟨_, _, .incDec ..⟩
  | ⟨_, _, .assign ..⟩ | ⟨_, _, .go _⟩ | ⟨_, _, .defer _⟩ | ⟨_, _, .jump ..⟩ => []

def sitesOfStmt? : Option Stmt → List ReturnSite
  | none => []
  | some stmt => stmt.sites none

def sitesOfStmts (before : List Stmt) : List Stmt → List ReturnSite
  | [] => []
  | stmt :: stmts => stmt.sites (some before) ++ sitesOfStmts (stmt :: before) stmts

def sitesOfCases : List CaseClause → List ReturnSite
  | [] => []
  | ⟨_, body, _⟩ :: clauses => sitesOfStmts [] body ++ sitesOfCases clauses

def sitesOfComms : List CommClause → List ReturnSite
  | [] => []
  | ⟨comm, body, _⟩ :: clauses => sitesOfStmt? comm ++ sitesOfStmts [] body ++ sitesOfComms clauses

end

theorem Stmt.sites_ret {stmt : Stmt} (h : stmt.form = .ret values) (before : Option (List Stmt)) :
    stmt.sites before = [⟨before, stmt⟩] := by
  obtain ⟨id, span, form⟩ := stmt
  obtain rfl : form = _ := h
  rfl

/-- What stands in front of a statement matters only when it is itself a return. -/
theorem Stmt.sites_eq {stmt : Stmt} (h : ∀ values, stmt.form ≠ .ret values)
    (before : Option (List Stmt)) : stmt.sites before = stmt.sites none := by
  obtain ⟨id, span, form⟩ := stmt
  cases form with
  | ret values => exact absurd rfl (h values)
  | block body | cond _ _ body _ | loop _ _ _ body | range _ _ _ _ body =>
    cases body
    rfl
  | _ => rfl

theorem sitesOfStmts_append (before stmts stmts' : List Stmt) :
    sitesOfStmts before (stmts ++ stmts') =
      sitesOfStmts before stmts ++ sitesOfStmts (stmts.reverse ++ before) stmts' := by
  induction stmts generalizing before with
  | nil => rfl
  | cons stmt stmts ih => simp [sitesOfStmts, ih]

theorem sites_of_isFlat {stmt : Stmt} (h : stmt.isFlat = true) (before : Option (List Stmt)) :
    stmt.sites before = [] := by
  obtain ⟨id, span, form⟩ := stmt
  cases form with
  | decl | empty | expr | send | incDec | assign => rfl
  | _ => simp [Stmt.isFlat] at h

theorem sitesOfStmts_of_isFlat {stmts : List Stmt} (h : ∀ x ∈ stmts, x.isFlat = true)
    (before : List Stmt) : sitesOfStmts before stmts = [] := by
  induction stmts generalizing before with
  | nil => rfl
  | cons stmt stmts ih =>
    obtain ⟨hstmt, hstmts⟩ := forall_mem_cons.1 h
    rw [sitesOfStmts, sites_of_isFlat hstmt, ih hstmts]
    rfl

namespace Lowering

/-! ## What a return becomes -/

/-- The second expression is what the lowering makes of the first. -/
def Env.Lowers (env : Env) (e e' : Expr) : Prop :=
  ∃ fuel s s', lowerExpr env (lowerSeq fuel ⟨env, none⟩) e s = .ok (e', s')

/-- The first read of an element in the operands `es` of a statement at `place` is taken out, into
a new variable, and `call` is the call that reads the element into it. -/
def Env.Takes (env : Env) (place : Span) (es rest : List Expr) (call : Expr) : Prop :=
  ∃ n x span base key,
    extractList (env.isElement place) (env.options.discardName n) false es = some x ∧
    x.rest = rest ∧ x.read = .index span base key ∧
    call = env.readCall base key (.ident span (env.options.discardName n)) span

/-- Behind the statements `front`, the operands `es'` are the operands `es` of a statement at
`place`, fully lowered: while there is a read of an element among them it is replaced by a
variable, and `front` has the call that reads the element into this variable, with its own operands
fully lowered. -/
inductive Env.Evaluates (env : Env) (place : Span) (front : List Stmt) :
    List Expr → List Expr → Prop
  | done {es es'} : (∀ x ∈ surfaceOfExprs es, env.isElement place x = false) →
    Forall₂ env.Lowers es es' → env.Evaluates place front es es'
  | take {es rest es' call call' y} : env.Takes place es rest call → y ∈ front →
    y.form = .expr call' → env.Evaluates place front [call] [call'] →
    env.Evaluates place front rest es' → env.Evaluates place front es es'

/-- Every expression statement of `front` was evaluated in `before`. -/
def Env.Passed (env : Env) (front before : List Stmt) : Prop :=
  ∀ x ∈ front, ∀ e, x.form = .expr e →
    ∃ y ∈ before, ∃ e', y.form = .expr e' ∧ env.Evaluates x.span before [e] [e']

/-- The statement `*out = value`. -/
def StoresThrough (out : String) (value : Expr) (stmt : Stmt) : Prop :=
  ∃ span, stmt.form = .assign [.unary span .deref (.ident span out)] .assign [value]

/-- The statement assigns through a pointer variable. -/
def isStore (stmt : Stmt) : Bool :=
  match stmt.form with
  | .assign [.unary _ .deref (.ident ..)] .assign [_] => true
  | _ => false

/-- The stores with new identities directly in front of a statement, first to last. -/
def storesBefore (base : NodeId) (before : List Stmt) : List Stmt :=
  (before.takeWhile fun x => base ≤ x.id && isStore x).reverse

/-- What the return `x` behind `front` becomes: the return `y` behind `before`, when `base` is the
first identity that the source does not use. -/
structure Env.ReturnsAs (env : Env) (plan : ReturnPlan) (base : NodeId) (front : List Stmt)
    (x : Stmt) (before : List Stmt) (y : Stmt) : Prop where
  span : y.span = x.span
  /-- What was evaluated in front of the one is evaluated in front of the other. -/
  front : env.Passed front before
  /-- A return of all values keeps the first if it stays, and stores the others. -/
  values : ∀ values, x.form = .ret values → values.length = plan.total →
    ∃ es, env.Evaluates x.span before values es ∧
      y.form = .ret (es.take (if plan.keepsFirst then 1 else 0)) ∧
      Forall₂ (fun out z => ∃ e ∈ es[out.1]?, StoresThrough out.2 e z) plan.outs
        (storesBefore base before)
  /-- A bare return stores the variables that stand in for named results. -/
  names : x.form = .ret [] → plan.named ≠ [] → y.form = .ret [] ∧
    Forall₂ (fun named z => StoresThrough named.1 (.ident x.span named.2) z)
      plan.named.reverse (storesBefore base before)

/-- How a return of the source and a return of the lowered body belong together. -/
def Env.Settled (env : Env) (plan : ReturnPlan) (base : NodeId) (source site : ReturnSite) : Prop :=
  site.stmt.id = source.stmt.id ∧ ∀ front ∈ source.before, ∃ before ∈ site.before,
    env.ReturnsAs plan base front source.stmt before site.stmt

section Operands

variable {env : Env} {plan : ReturnPlan} {base : NodeId} {stmt : Stmt} {place : Span}
  {front front' before' : List Stmt}

theorem Env.Evaluates.mono {es es'} (h : env.Evaluates place front es es')
    (hfront : front ⊆ front') : env.Evaluates place front' es es' := by
  induction h with
  | done hread hlowers => exact .done hread hlowers
  | take htakes hy hform _ _ ih ih' => exact .take htakes (hfront hy) hform ih ih'

theorem Env.Passed.nil : env.Passed [] before := by simp [Env.Passed]

theorem Env.Passed.mono (h : env.Passed front before) (hbefore : before ⊆ before') :
    env.Passed front before' := by
  intro x hx e hform
  obtain ⟨y, hy, e', hform', heval⟩ := h x hx e hform
  exact ⟨y, hbefore hy, e', hform', heval.mono hbefore⟩

theorem Env.Passed.of_subset (h : env.Passed front before) (hfront : front' ⊆ front) :
    env.Passed front' before :=
  fun x hx => h x (hfront hx)

/-- A statement that is not only evaluated adds nothing. -/
theorem Env.Passed.cons (h : env.Passed front before) (hy : ∀ e, y.form ≠ .expr e) :
    env.Passed (y :: front) before := by
  intro x hx e hform
  rcases mem_cons.1 hx with rfl | hx
  · exact absurd hform (hy e)
  · exact h x hx e hform

theorem extractList_length {isRead temp guarded es x}
    (h : extractList isRead temp guarded es = some x) : x.rest.length = es.length := by
  induction es generalizing x with
  | nil => simp [extractList] at h
  | cons e es ih =>
    rcases around_orElse h with ⟨y, -, rfl⟩ | ⟨y, hy, rfl⟩
    · rfl
    · exact congrArg Nat.succ (ih hy)

/-- A read that is taken out of a return first does not change what the return becomes. -/
theorem Env.ReturnsAs.of_taken {rest call}
    (h : env.ReturnsAs plan base front' ⟨stmt.id, stmt.span, .ret rest⟩ before y)
    (hform : stmt.form = .ret values) (htakes : env.Takes stmt.span values rest call)
    (hcall : ∃ x ∈ front', x.span = stmt.span ∧ x.form = .expr call)
    (hfront : env.Passed front before) : env.ReturnsAs plan base front stmt before y where
  span := h.span
  front := hfront
  values values' hform' hlen := by
    rw [hform] at hform'
    obtain rfl := StmtForm.ret.inj hform'
    have hlen' : rest.length = plan.total := by
      obtain ⟨n, x, _, _, _, hx, rfl, -⟩ := htakes
      exact (extractList_length hx).trans hlen
    obtain ⟨es, heval, hsite⟩ := h.values rest rfl hlen'
    obtain ⟨x, hx, hspan, hxform⟩ := hcall
    obtain ⟨z, hz, call', hzform, hcall⟩ := h.front x hx call hxform
    exact ⟨es, .take htakes hz hzform (hspan ▸ hcall) heval, hsite⟩
  names hform' := by
    rw [hform] at hform'
    obtain rfl := StmtForm.ret.inj hform'
    obtain ⟨n, x, _, _, _, hx, -⟩ := htakes
    simp [extractList] at hx

theorem lowerExprs_forall₂ {lowerBody es es' s s'}
    (h : lowerExprs env lowerBody es s = .ok (es', s')) :
    Forall₂ (fun e e' => ∃ t t', lowerExpr env lowerBody e t = .ok (e', t')) es es' := by
  induction es generalizing es' s with
  | nil =>
    cases h
    exact .nil
  | cons e es ih =>
    obtain ⟨e', s1, he, h⟩ := bind_eq_ok h
    obtain ⟨es', s2, hes, h⟩ := bind_eq_ok h
    cases h
    exact .cons ⟨s, s1, he⟩ (ih hes)

/-- A store stays a store, with its value lowered. -/
theorem LowersPlain.store {fuel out value form s s'}
    (h : LowersPlain env (lowerSeq fuel ⟨env, none⟩)
      (.assign [.unary span .deref (.ident span out)] .assign [value]) form s s') :
    ∃ value', env.Lowers value value' ∧
      form = .assign [.unary span .deref (.ident span out)] .assign [value'] := by
  cases h with
  | assign hop htargets hvalues =>
    obtain ⟨value', rest, ⟨t, t', hvalue⟩, hrest, rfl⟩ :=
      forall₂_cons_left_iff.1 (lowerExprs_forall₂ hvalues)
    obtain rfl := forall₂_nil_left_iff.1 hrest
    refine ⟨value', ⟨fuel, t, t', hvalue⟩, ?_⟩
    cases htargets
    rfl

end Operands

/-! ## Entering statements that hold no statements -/

/-- The function whose returns a task may settle. -/
def Task.plan? : Task → Option ReturnPlan
  | .seq plan _ _ | .each plan _ _ | .stmt plan _ _ | .header plan _ _ | .branch plan _ _
  | .arms plan _ _ => plan
  | .bodies _ _ => none

theorem Task.unplanned {P : ReturnPlan → Prop} {bs bs'} :
    ∀ p ∈ (Task.bodies bs bs').plan?, P p := by
  simp [Task.plan?]

section Entering

variable {env : Env} {s s' : State}

/-- In a function literal no return is settled. -/
theorem Walks.settled_eq {task} (h : Walks env task s s') (hplan : task.plan? = none) :
    s'.settled = s.settled := by
  induction h with
  | nil | eachNil | noHeader | noBranch | armsNil | bodiesNil => rfl
  | hoist _ _ _ ih | split _ _ _ _ ih | wrap _ _ ih => exact ih hplan
  | replace _ _ hissues _ ih | inPlace _ _ hissues _ ih => exact (ih hplan).trans hissues.settled
  | settle => simp [Task.plan?] at hplan
  | plain _ _ _ ih => exact ih rfl
  | block _ ih | header _ _ _ ih | branch _ _ _ ih => exact ih hplan
  | post _ _ _ _ _ _ _ ih ih' | enter _ _ _ _ _ ih ih' | eachCons _ _ _ ih ih' =>
    exact (ih' hplan).trans (ih hplan)
  | range _ _ _ _ _ ih ih' => exact (ih' hplan).trans (ih rfl)
  | bodiesCons _ _ ih ih' => exact (ih' rfl).trans (ih rfl)
  | switch _ _ _ _ ih1 ih2 ih3 => exact (ih3 hplan).trans ((ih2 rfl).trans (ih1 hplan))
  | armsCons _ _ _ _ ih1 ih2 ih3 => exact (ih3 hplan).trans ((ih2 hplan).trans (ih1 rfl))
  | cond _ _ _ _ _ ih1 ih2 ih3 ih4 =>
    exact (ih4 hplan).trans ((ih3 hplan).trans ((ih2 rfl).trans (ih1 hplan)))
  | loop _ _ _ _ _ ih1 ih2 ih3 ih4 =>
    exact (ih4 hplan).trans ((ih3 hplan).trans ((ih2 rfl).trans (ih1 hplan)))

/-- What it is to enter a statement that holds no statements. -/
def Env.Entered (env : Env) (x y : Stmt) : Prop :=
  y.id = x.id ∧ y.span = x.span ∧
    ∃ fuel t t', LowersPlain env (lowerSeq fuel ⟨env, none⟩) x.form y.form t t'

theorem Walks.stmt_plain {plan x} (h : Walks env (.stmt plan x y) s s')
    (hplain : isPlain x.form = true) : env.Entered x y ∧ s'.settled = s.settled := by
  cases h with
  | plain fuel hform hbodies => exact ⟨⟨rfl, rfl, fuel, s, s', hform⟩, hbodies.settled_eq rfl⟩
  | _ => simp [isPlain] at hplain

theorem Walks.each_plain {plan stmts out} (h : Walks env (.each plan stmts out) s s')
    (hplain : ∀ x ∈ stmts, isPlain x.form = true) :
    Forall₂ env.Entered stmts out ∧ s'.settled = s.settled := by
  induction stmts generalizing out s with
  | nil =>
    cases h with
    | eachNil => exact ⟨.nil, rfl⟩
  | cons x stmts ih =>
    cases h with
    | eachCons _ hx hrest =>
      obtain ⟨hentered, hsettled⟩ := hx.stmt_plain (hplain x mem_cons_self)
      obtain ⟨hall, hsettled'⟩ := ih hrest fun y hy => hplain y (mem_cons_of_mem _ hy)
      exact ⟨.cons hentered hall, hsettled'.trans hsettled⟩

end Entering

/-! ## The stores of one return -/

/-- The statement is a store with a new identity. -/
def isNewStore (base : NodeId) (x : Stmt) : Bool := base ≤ x.id && isStore x

/-- The nearest statement in front is no new store. -/
def Clean (base : NodeId) (before : List Stmt) : Prop :=
  ∀ x ∈ before.head?, isNewStore base x = false

/-- The plan has an output parameter for every position that is not kept, in ascending order. -/
def ReturnPlan.Ascending (plan : ReturnPlan) : Prop :=
  (if plan.keepsFirst then [0] else []) ++ plan.outs.map Prod.fst = range plan.total

/-- So does the plan of a function. -/
theorem ascending_of_lowerHead {func plan} (h : (lowerHead func).plan = some plan) :
    plan.Ascending := by
  obtain ⟨htotal, hkeeps, houts⟩ := plan_of_lowerHead h
  unfold ReturnPlan.Ascending
  rw [htotal, hkeeps, houts, map_fst_outPairs, ← kept_append_moved (shapeOf_pos _)]
  rfl

section Stores

variable {env : Env} {plan : ReturnPlan} {base : NodeId} {stmt : Stmt} {s s' : State}

theorem StoresThrough.isStore {out value x} (h : StoresThrough out value x) : isStore x = true := by
  obtain ⟨span, hform⟩ := h
  simp [Lowering.isStore, hform]

theorem isFlat_of_isNewStore {x} (h : isNewStore base x = true) : x.isFlat = true := by
  simp only [isNewStore, isStore, Bool.and_eq_true] at h
  split at h
  · rename_i hform
    simp [Stmt.isFlat, hform]
  · simp at h

/-- New stores in front of a return are all that stands there of new stores. -/
theorem storesBefore_eq (hstores : ∀ x ∈ stores, isNewStore base x = true)
    (hbefore : Clean base before) : storesBefore base (stores.reverse ++ before) = stores := by
  have hrest : before.takeWhile (fun x => isNewStore base x) = [] := by
    cases before with
    | nil => rfl
    | cons x before =>
      have hx := hbefore x rfl
      simp [hx]
  have htake : (stores.reverse ++ before).takeWhile (fun x => isNewStore base x) =
      stores.reverse := by
    rw [takeWhile_append_of_pos (by simpa using hstores), hrest, append_nil]
  show ((stores.reverse ++ before).takeWhile fun x => isNewStore base x).reverse = stores
  rw [htake, reverse_reverse]

theorem moved_eq_zip {outs : List (Nat × String)} (pre rest : List Expr)
    (h : outs.map Prod.fst = range' pre.length rest.length) :
    (outs.filterMap fun out => (pre ++ rest)[out.1]?.map fun value => (out.2, value)) =
      (outs.map Prod.snd).zip rest := by
  induction rest generalizing outs pre with
  | nil =>
    have hnil : outs = [] := by simpa using h
    simp [hnil]
  | cons value rest ih =>
    cases outs with
    | nil => simp [range'_succ] at h
    | cons out outs =>
      simp only [map_cons, length_cons, range'_succ, cons.injEq] at h
      have hrest := ih (pre ++ [value]) (by simpa using h.2)
      rw [append_assoc, singleton_append] at hrest
      simp [h.1, hrest]

/-- The values that a return stores are its operands from the first position on that moves. -/
theorem stores_at {outs} (pre rest : List Expr)
    (hpos : outs.map Prod.fst = range' pre.length rest.length)
    (h : Forall₂ (fun p x => StoresThrough p.1 p.2 x) ((outs.map Prod.snd).zip rest) stores) :
    Forall₂ (fun out x => ∃ e ∈ (pre ++ rest)[out.1]?, StoresThrough out.2 e x) outs
      stores := by
  induction rest generalizing outs pre stores with
  | nil =>
    have hnil : outs = [] := by simpa using hpos
    subst hnil
    simpa using h
  | cons value rest ih =>
    cases outs with
    | nil => simp [range'_succ] at hpos
    | cons out outs =>
      simp only [map_cons, length_cons, range'_succ, cons.injEq] at hpos
      obtain ⟨x, xs, hx, hxs, rfl⟩ := forall₂_cons_left_iff.1 h
      have hrest := ih (pre ++ [value]) (by simpa using hpos.2) hxs
      rw [append_assoc, singleton_append] at hrest
      exact .cons ⟨value, by simp [hpos.1], hx⟩ hrest

theorem lowered_stores {names : List String} {rest} (hlen : names.length = rest.length)
    (h : Forall₂ (fun p x => ∃ e, env.Lowers p.2 e ∧ StoresThrough p.1 e x) (names.zip rest)
      stores) : ∃ rest', Forall₂ env.Lowers rest rest' ∧
      Forall₂ (fun p x => StoresThrough p.1 p.2 x) (names.zip rest') stores := by
  induction rest generalizing names stores with
  | nil => exact ⟨[], .nil, by simpa using h⟩
  | cons value rest ih =>
    cases names with
    | nil => simp at hlen
    | cons name names =>
      obtain ⟨x, xs, ⟨e, hlowers, hx⟩, hxs, rfl⟩ := forall₂_cons_left_iff.1 h
      obtain ⟨rest', hrest, hstores⟩ := ih (by simpa using hlen) hxs
      exact ⟨e :: rest', .cons hlowers hrest, .cons hx hstores⟩

/-- New stores and the statement behind them, each of them entered. -/
theorem entered_stores {moved new ret} (hstores : Forall₂ (Stores span) moved stores)
    (hids : ∀ x ∈ stores, base ≤ x.id) (hnew : Forall₂ env.Entered (stores ++ [ret]) new) :
    ∃ stores' ret', new = stores' ++ [ret'] ∧ env.Entered ret ret' ∧
      (∀ x ∈ stores', isNewStore base x = true) ∧
      Forall₂ (fun p x => ∃ e, env.Lowers p.2 e ∧ StoresThrough p.1 e x) moved stores' := by
  induction hstores generalizing new with
  | nil =>
    obtain ⟨ret', rest, hret, hrest, rfl⟩ := forall₂_cons_left_iff.1 hnew
    obtain rfl := forall₂_nil_left_iff.1 hrest
    exact ⟨[], ret', rfl, hret, by simp, .nil⟩
  | @cons p x _ _ hx _ ih =>
    obtain ⟨x', rest, ⟨hid, -, fuel, t, t', hplain⟩, hrest, rfl⟩ :=
      forall₂_cons_left_iff.1 hnew
    obtain ⟨stores', ret', rfl, hret, hall, hlowered⟩ :=
      ih (fun y hy => hids y (mem_cons_of_mem _ hy)) hrest
    rw [hx.2] at hplain
    obtain ⟨e, hlowers, hform⟩ := hplain.store
    have hstore : StoresThrough p.1 e x' := ⟨_, hform⟩
    refine ⟨x' :: stores', ret', rfl, hret, ?_, .cons ⟨e, hlowers, hstore⟩ hlowered⟩
    intro y hy
    rcases mem_cons.1 hy with rfl | hy
    · have hbase : base ≤ y.id := hid ▸ hids x mem_cons_self
      simp [isNewStore, hbase, hstore.isStore]
    · exact hall y hy

theorem Env.Entered.ret {x} (h : env.Entered x y) (hform : x.form = .ret values) :
    ∃ values', y.form = .ret values' ∧ Forall₂ env.Lowers values values' := by
  obtain ⟨-, -, fuel, t, t', hplain⟩ := h
  rw [hform] at hplain
  generalize y.form = form at hplain ⊢
  cases hplain with
  | ret hvalues =>
    refine ⟨_, rfl, (lowerExprs_forall₂ hvalues).imp ?_⟩
    rintro e e' ⟨u, u', he⟩
    exact ⟨fuel, u, u', he⟩

theorem clean_ret {ret} (hform : ret.form = .ret values) : Clean base (ret :: before) := by
  intro x hx
  obtain rfl : ret = x := by simpa using hx
  simp [isNewStore, isStore, hform]

theorem sitesOfStmts_ret {ret} (hform : ret.form = .ret values) :
    sitesOfStmts before [ret] = [⟨some before, ret⟩] := by
  rw [sitesOfStmts, Stmt.sites_ret hform]
  rfl

/-- The site of a return that stands alone behind new stores. -/
theorem sites_behind_stores (before : List Stmt) {ret}
    (hstores : ∀ x ∈ stores, isNewStore base x = true) (hform : ret.form = .ret values) :
    sitesOfStmts before (stores ++ [ret]) = [⟨some (stores.reverse ++ before), ret⟩] ∧
      Clean base ((stores ++ [ret]).reverse ++ before) := by
  constructor
  · rw [sitesOfStmts_append, sitesOfStmts_of_isFlat fun x hx => isFlat_of_isNewStore (hstores x hx),
      sitesOfStmts_ret hform, nil_append]
  · rw [reverse_append, append_assoc]
    exact clean_ret hform

theorem Env.Entered.expr {x e} (h : env.Entered x y) (hform : x.form = .expr e) :
    ∃ e', y.form = .expr e' ∧ env.Lowers e e' := by
  obtain ⟨-, -, fuel, t, t', hplain⟩ := h
  rw [hform] at hplain
  generalize y.form = form at hplain ⊢
  cases hplain with
  | expr he => exact ⟨_, rfl, fuel, t, t', he⟩

/-- Nothing is said of a return that passes the output parameters on. -/
theorem Env.ReturnsAs.of_forwarded {front call} (hform : stmt.form = .ret [call])
    (htotal : plan.total ≠ 1) (hspan : y.span = stmt.span) (hfront : env.Passed front before) :
    env.ReturnsAs plan base front stmt before y where
  span := hspan
  front := hfront
  values values hvalues hlen := by
    rw [hform] at hvalues
    obtain rfl := StmtForm.ret.inj hvalues
    exact absurd hlen.symm htotal
  names hvalues := by
    rw [hform] at hvalues
    simp at hvalues

theorem ReturnPlan.Ascending.length_kept (h : plan.Ascending) (hlen : values.length = plan.total) :
    plan.outs.map Prod.fst =
      range' (values.take (if plan.keepsFirst then 1 else 0)).length
        (values.drop (if plan.keepsFirst then 1 else 0)).length := by
  unfold ReturnPlan.Ascending at h
  rw [← hlen] at h
  cases hkeeps : plan.keepsFirst with
  | false => simpa [hkeeps, range_eq_range'] using h
  | true =>
    rw [hkeeps, if_pos rfl, singleton_append] at h
    cases values with
    | nil => simp at h
    | cons value values =>
      simp only [length_cons, range_eq_range', range'_succ, cons.injEq] at h
      simpa using h.2

theorem ReturnPlan.Ascending.kept_le (h : plan.Ascending) :
    (if plan.keepsFirst then 1 else 0) ≤ plan.total := by
  unfold ReturnPlan.Ascending at h
  split at h
  · have hlen := congrArg length h
    simp only [length_append, length_singleton, length_map, length_range] at hlen
    simp_all
    omega
  · simp_all

/-- The operands of a return of all values, lowered: the first one in the return if it stays, the
others in the stores. -/
theorem ReturnPlan.Ascending.operands (h : plan.Ascending) {kept : List Expr}
    (hlen : values.length = plan.total)
    (hkept : Forall₂ env.Lowers (values.take (if plan.keepsFirst then 1 else 0)) kept)
    (hstores : Forall₂ (fun p x => ∃ e, env.Lowers p.2 e ∧ StoresThrough p.1 e x)
      (plan.moved values) stores) :
    ∃ es, Forall₂ env.Lowers values es ∧
      kept = es.take (if plan.keepsFirst then 1 else 0) ∧
      Forall₂ (fun out x => ∃ e ∈ es[out.1]?, StoresThrough out.2 e x) plan.outs stores := by
  have hpos := h.length_kept hlen
  have hle := h.kept_le
  generalize (if plan.keepsFirst then 1 else 0) = k at hkept hpos hle ⊢
  have hmoved := moved_eq_zip (values.take k) (values.drop k) hpos
  rw [take_append_drop] at hmoved
  rw [ReturnPlan.moved, hmoved] at hstores
  have houts : (plan.outs.map Prod.snd).length = (values.drop k).length := by
    simpa using congrArg length hpos
  obtain ⟨rest, hrest, hstores⟩ := lowered_stores houts hstores
  refine ⟨kept ++ rest, ?_, ?_, ?_⟩
  · have hall : Forall₂ env.Lowers (values.take k ++ values.drop k) (kept ++ rest) :=
      rel_append hkept hrest
    rwa [take_append_drop] at hall
  · have hk : kept.length = k := by
      rw [← hkept.length_eq, length_take]
      omega
    rw [take_left' hk]
  · rw [hkept.length_eq, hrest.length_eq] at hpos
    exact stores_at kept rest hpos hstores

theorem Env.Lowers.eq_ident {name e} (h : env.Lowers (.ident span name) e) :
    e = .ident span name := by
  obtain ⟨fuel, t, t', he⟩ := h
  cases he
  rfl

/-- A return that follows its plan becomes what it should. -/
theorem Settles.returnsAs {front new new'} (h : Settles env plan stmt s new s')
    (hplan : plan.Ascending) (hpos : plan.total ≠ 0) (hidle : env.Idle stmt)
    (hbase : base ≤ s.nextId) (hnew : Forall₂ env.Entered new new')
    (hbefore : Clean base before) (hfront : env.Passed front before) :
    (∃ before' y, sitesOfStmts before new' = [⟨some before', y⟩] ∧ y.id = stmt.id ∧
      env.ReturnsAs plan base front stmt before' y) ∧ Clean base (new'.reverse ++ before) := by
  cases h with
  | @values values stores _ hform hlen hstores hissues =>
    have hids : ∀ x ∈ stores, base ≤ x.id :=
      fun x hx => Nat.le_trans hbase (hissues.ids x hx).1
    obtain ⟨stores', ret', rfl, hret, hall, hlowered⟩ := entered_stores hstores hids hnew
    obtain ⟨kept, hform', hkept⟩ := hret.ret rfl
    obtain ⟨hsites, hclean⟩ := sites_behind_stores before hall hform'
    have hpassed := hfront.mono (subset_append_right stores'.reverse before)
    refine ⟨⟨_, ret', hsites, hret.1, hret.2.1, hpassed, ?_, ?_⟩, hclean⟩
    · intro values' hvalues _
      rw [hform] at hvalues
      obtain rfl := StmtForm.ret.inj hvalues
      rw [storesBefore_eq hall hbefore]
      obtain ⟨es, hlowers, hes, hout⟩ := hplan.operands hlen hkept hlowered
      have hread := extractForm_eq_none.1 (hidle.hoist "")
      rw [hform] at hread
      exact ⟨es, .done hread hlowers, hes ▸ hform', hout⟩
    · intro hvalues
      rw [hform] at hvalues
      obtain rfl := StmtForm.ret.inj hvalues
      exact absurd hlen.symm hpos
  | @names stores _ hform _ _ hstores hissues =>
    have hids : ∀ x ∈ stores, base ≤ x.id :=
      fun x hx => Nat.le_trans hbase (hissues.ids x hx).1
    obtain ⟨stores', ret', rfl, hret, hall, hlowered⟩ := entered_stores hstores hids hnew
    obtain ⟨kept, hform', hkept⟩ := hret.ret rfl
    obtain rfl := forall₂_nil_left_iff.1 hkept
    obtain ⟨hsites, hclean⟩ := sites_behind_stores before hall hform'
    have hpassed := hfront.mono (subset_append_right stores'.reverse before)
    refine ⟨⟨_, ret', hsites, hret.1, hret.2.1, hpassed, ?_, ?_⟩, hclean⟩
    · intro values' hvalues hlen
      rw [hform] at hvalues
      obtain rfl := StmtForm.ret.inj hvalues
      exact absurd hlen.symm hpos
    · intro _ _
      rw [storesBefore_eq hall hbefore]
      refine ⟨hform', (forall₂_map_left_iff.1 hlowered).imp ?_⟩
      rintro named x ⟨e, hlowers, hstore⟩
      rwa [hlowers.eq_ident] at hstore
  | call hform htotal =>
    obtain ⟨ret', rest, hret, hrest, rfl⟩ := forall₂_cons_left_iff.1 hnew
    obtain rfl := forall₂_nil_left_iff.1 hrest
    obtain ⟨kept, hform', -⟩ := hret.ret rfl
    exact ⟨⟨_, ret', sitesOfStmts_ret hform', hret.1,
      .of_forwarded hform htotal hret.2.1 hfront⟩, clean_ret hform'⟩
  | callOnly hform htotal =>
    obtain ⟨call', rest, hcall, hrest, rfl⟩ := forall₂_cons_left_iff.1 hnew
    obtain ⟨ret', none', hret, hnone, rfl⟩ := forall₂_cons_left_iff.1 hrest
    obtain rfl := forall₂_nil_left_iff.1 hnone
    obtain ⟨kept, hform', -⟩ := hret.ret rfl
    obtain ⟨e, hexpr, -⟩ := hcall.expr rfl
    have hsites : call'.sites (some before) = [] := sites_of_isFlat (by simp [Stmt.isFlat, hexpr]) _
    rw [sitesOfStmts, hsites, sitesOfStmts_ret hform']
    have hpassed := hfront.mono (subset_cons_self call' before)
    exact ⟨⟨_, ret', rfl, hret.1, .of_forwarded hform htotal hret.2.1 hpassed⟩, clean_ret hform'⟩

end Stores

/-! ## What the lowering is given -/

/-- A statement with a new identity assigns to variables only. -/
def AssignsNames (base : NodeId) (x : Stmt) : Prop :=
  base ≤ x.id → ∀ targets op values, x.form = .assign targets op values →
    ∀ target ∈ targets, target.name?.isSome

/-- The post statement of a loop stands in the source. -/
def PostBelow (base : NodeId) : StmtForm → Prop
  | .loop _ _ (some post) _ => post.id < base
  | _ => True

/-- What is given about one statement: it assigns to variables only if it is new, and no rule made
its post statement. -/
structure Trim (base : NodeId) (x : Stmt) : Prop where
  names : AssignsNames base x
  post : PostBelow base x.form

/-- So is it for the statement and those inside it, outside function literals. -/
def Tidy (base : NodeId) (x : Stmt) : Prop := ∀ y, Inside false x y → Trim base y

section Tidy

variable {env : Env} {base : NodeId} {stmt x y : Stmt}

theorem Tidy.part (h : Tidy base x) (hy : y ∈ x.form.inner) : Tidy base y :=
  fun z hz => h z (.part hy hz)

theorem Tidy.intro (h : Trim base x) (hinner : ∀ y ∈ x.form.inner, Tidy base y) : Tidy base x := by
  intro y hy
  cases hy with
  | self => exact h
  | part hz hy => exact hinner _ hz y hy

/-- A statement that is no assignment assigns to nothing. -/
theorem AssignsNames.of_form (h : ∀ targets op values, x.form ≠ .assign targets op values) :
    AssignsNames base x :=
  fun _ targets op values hform => absurd hform (h targets op values)

theorem Tidy.of_flat (h : x.isFlat = true) (hnames : AssignsNames base x) : Tidy base x := by
  have hparts : x.form.inner = [] ∧ PostBelow base x.form := by
    obtain ⟨id, span, form⟩ := x
    cases form with
    | decl | empty | expr | send | incDec | assign => exact ⟨rfl, trivial⟩
    | _ => simp [Stmt.isFlat] at h
  exact .intro ⟨hnames, hparts.2⟩ (by simp [hparts.1])

theorem Rewrites.before_tidy (h : Rewrites env stmt r) (hx : x ∈ r.before) : Tidy base x := by
  refine .of_flat (h.before_flat hx) (.of_form ?_)
  intro targets op values
  rcases (h.before_form hx).2 with ⟨vars, span, hform⟩ | ⟨e, hform⟩ <;> simp [hform]

theorem name?_isSome_of_named {target target'} (h : Named target target')
    (hname : target.name?.isSome) : target'.name?.isSome := by
  rcases h with rfl | ⟨-, name, rfl⟩
  · exact hname
  · rfl

theorem extractTargets_names {isRead temp targets x}
    (h : extractTargets isRead temp targets = some x)
    (hnames : ∀ target ∈ targets, target.name?.isSome) :
    ∀ target ∈ x.rest, target.name?.isSome := by
  induction targets generalizing x with
  | nil => simp [extractTargets] at h
  | cons target targets ih =>
    obtain ⟨hname, hnames⟩ := forall_mem_cons.1 hnames
    rcases around_orElse h with ⟨y, hy, rfl⟩ | ⟨y, hy, rfl⟩
    · refine forall_mem_cons.2 ⟨?_, hnames⟩
      cases target with
      | ident span name =>
        have hy : extract isRead temp false (.ident span name) = some y := hy
        unfold extract at hy
        split at hy
        · cases hy
          rfl
        · contradiction
      | _ => simp [Expr.name?] at hname
    · exact forall_mem_cons.2 ⟨hname, ih hy hnames⟩

/-- A rule that is applied to an assignment to variables assigns to variables. -/
theorem Rewrites.assignsNames (h : Rewrites env stmt r)
    (hnames : AssignsNames base stmt) : AssignsNames base ⟨stmt.id, stmt.span, r.form⟩ := by
  intro hbase targets op values hform
  have hnames := hnames hbase
  cases h with
  | write | update => simp at hform
  | @read _ _ _ _ _ _ _ second? hstmt =>
    have hnames := hnames _ _ _ hstmt
    cases second? with
    | none => simp [Env.readForm] at hform
    | some second =>
      simp only [Env.readForm, Option.filter_some] at hform
      split at hform
      · rename_i flag hflag
        split at hflag
        · obtain ⟨rfl, -⟩ := StmtForm.assign.inj hform
          cases hflag
          simpa using hnames second (by simp)
        · contradiction
      · contradiction
  | define hstmt _ hnamed =>
    have hnames := hnames _ _ _ hstmt
    obtain ⟨rfl, -⟩ := StmtForm.assign.inj hform
    intro target htarget
    obtain ⟨source, hsource, htarget⟩ := forall₂_exists_right hnamed htarget
    exact name?_isSome_of_named htarget (hnames source hsource)
  | @complete _ _ _ _ _ named _ hstmt _ hnamed =>
    have hnames := hnames _ _ _ hstmt
    unfold completedForm at hform
    split at hform
    · rename_i first hfirst
      obtain ⟨rfl, -⟩ := StmtForm.assign.inj hform
      intro target htarget
      obtain rfl := mem_singleton.1 htarget
      have hmem : target ∈ named := by
        split at hfirst
        · exact mem_of_mem_head? (Option.filter_eq_some_iff.1 hfirst).1
        · contradiction
      obtain ⟨source, hsource, htarget⟩ := forall₂_exists_right hnamed hmem
      exact name?_isSome_of_named htarget (hnames source hsource)
    · contradiction
  | hoist hextracts =>
    generalize hstmt : stmt.form = source at hextracts
    cases hextracts with
    | targets htargets =>
      obtain ⟨rfl, -⟩ := StmtForm.assign.inj hform
      exact extractTargets_names htargets (hnames _ _ _ hstmt)
    | values hvalues =>
      obtain ⟨rfl, -⟩ := StmtForm.assign.inj hform
      exact hnames _ _ _ hstmt
    | _ => simp [Extraction.map] at hform

/-- No rule leaves a loop. -/
theorem Rewrites.postBelow (h : Rewrites env stmt r) : PostBelow base r.form := by
  obtain ⟨id, span, form⟩ := stmt
  obtain ⟨before, form'⟩ := r
  cases h.reforms with
  | action _ ha | without _ ha => cases ha <;> trivial

/-- What a rule leaves is as tidy as the statement. -/
theorem Rewrites.tidy (h : Rewrites env stmt r) (hstmt : Tidy base stmt) :
    Tidy base ⟨stmt.id, stmt.span, r.form⟩ := by
  refine .intro ⟨h.assignsNames (hstmt stmt .self).names, h.postBelow⟩ ?_
  intro y hy
  exact hstmt.part (h.inner ▸ hy)

end Tidy

end Lowering

end ScriptLowering
