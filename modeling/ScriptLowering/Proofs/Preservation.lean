import Mathlib.Data.Int.Bitwise
import ScriptLowering.Proofs.Evaluation
import ScriptLowering.Proofs.Rewriting

/-!
# Updates keep their meaning

An update of one variable or element is lowered to declarations of temporaries, calls of the
container library and one last statement. Whatever that sequence does to the variables of the
source and to the containers, the update did.

Each rule is shown to refine the statement it is applied to, up to the temporaries it introduces
(`Refines`). A temporary is new: its number is the state's counter, and everything written so far
uses names below it (`Options.Below`).
-/

namespace ScriptLowering

open List

variable {container name : String} {e key target value : Expr} {op : AssignOp} {guarded : Bool}
  {id id' : NodeId} {place span span' targetSpan : Span} {Q : Prop} {s : State}

namespace Lowering

/-! ## Synthesized names -/

section Names

variable {options : Options} {k k' : Nat} {name : String}

/-- The name is none of the synthesized ones from number `k` on. -/
def Options.Below (options : Options) (k : Nat) (name : String) : Prop :=
  ∀ n, k ≤ n → name ≠ options.discardName n

theorem Options.Below.mono (h : options.Below k name) (hk : k ≤ k') : options.Below k' name :=
  fun n hn => h n (hk.trans hn)

theorem Options.below_discardName (h : k < k') : options.Below k' (options.discardName k) := by
  intro n hn heq
  have := options.discardName_injective heq
  omega

theorem Options.not_below_discardName : ¬ options.Below k (options.discardName k) :=
  fun h => h k le_rfl rfl

end Names

/-! ## Runs that leave the state alone -/

section Quiet

variable {α β : Type} {m : LowerM α} {out : α → Prop}

/-- The run gives a result with `out` and the state it was started in, or stops. -/
def Quiet (m : LowerM α) (out : α → Prop) : Prop :=
  ∀ s, Ensures m (fun a s' => s' = s ∧ out a) (fun _ => True) s

theorem Quiet.pure {a} (h : out a) : Quiet (Pure.pure a) out := fun _ => ⟨rfl, h⟩

theorem Quiet.bind {f} {out' : β → Prop} (hm : Quiet m out) (hf : ∀ a, out a → Quiet (f a) out') :
    Quiet (m >>= f) out' := by
  intro s
  refine (hm s).bind ?_
  rintro a s' ⟨rfl, ha⟩
  exact hf a ha s'

end Quiet

end Lowering

/-- The resolver knows exactly the variables in `C` to be containers. -/
def Resolver.Reports (resolver : Resolver) (C : String → Prop) : Prop :=
  ∀ span name place, (resolver.typeOf (.ident span name) place).any (·.isContainer) = true ↔ C name

namespace Lowering

section Expressions

variable {env : Env} {lowerSeq : SequenceLowering} {C V : String → Prop}

section

variable (hres : env.resolver.Reports C)
include hres

theorem isContainerRead_element (hc : C container) (at_ span place : Span) (key : Expr) :
    env.resolver.isContainerRead at_ (.index span (.ident place container) key) = true :=
  (hres place container at_).2 hc

/-- An expression keeps its value, and the lowering of one that has an element in it fails. -/
theorem lowerExpr_plain (h : Plain C V e) :
    Quiet (lowerExpr env lowerSeq e) fun r => Plain C V r ∧ ∀ A σ, r.eval A σ = e.eval A σ := by
  induction h with
  | ident hn =>
    exact .pure ⟨.ident hn, fun _ _ => rfl⟩
  | int =>
    exact .pure ⟨.int, fun _ _ => rfl⟩
  | paren _ ih =>
    exact ih.bind fun inner' hi => .pure ⟨.paren hi.1, fun A σ => hi.2 A σ⟩
  | unary hop _ ih =>
    refine ih.bind fun operand' ho => .pure ⟨.unary hop ho.1, fun A σ => ?_⟩
    simp only [Expr.eval, ho.2]
  | binary _ _ ihl ihr =>
    refine ihl.bind fun left' hl => ihr.bind fun right' hr => .pure ?_
    unfold lowerBinary
    split
    · rename_i hop
      subst hop
      refine ⟨.binary hl.1 (.paren (.unary rfl (.paren hr.1))), fun A σ => ?_⟩
      simp only [complement, Expr.eval, UnaryOp.isArithmetic, if_true, hl.2, hr.2,
        A.apply_andNot]
    · refine ⟨.binary hl.1 hr.1, fun A σ => ?_⟩
      simp only [Expr.eval, hl.2, hr.2]
  | element hc _ _ _ =>
    unfold lowerExpr
    rw [if_pos (isContainerRead_element hres hc _ _ _ _)]
    exact fun _ => trivial

/-- A target that is lowered at all is a variable. -/
theorem lowerExpr_target (h : Target C V target) :
    Quiet (lowerExpr env lowerSeq target) (· = target) := by
  unfold lowerExpr
  cases h with
  | var _ _ => exact .pure rfl
  | element hc _ _ =>
    dsimp only
    rw [if_pos (isContainerRead_element hres hc _ _ _ _)]
    exact fun _ => trivial

omit hres in
theorem lowerExpr_ident (span : Span) (name : String) :
    Quiet (lowerExpr env lowerSeq (.ident span name)) (· = .ident span name) := by
  exact .pure rfl

theorem lowerExpr_readCall (hk : Plain C V key) (place targetSpan span : Span)
    (container target : String) :
    Quiet (lowerExpr env lowerSeq
        (env.readCall (.ident place container) key (.ident targetSpan target) span))
      fun r => ∃ key', Plain C V key' ∧ (∀ A σ, key'.eval A σ = key.eval A σ) ∧
        r = env.readCall (.ident place container) key' (.ident targetSpan target) span := by
  refine (lowerExpr_ident _ _).bind ?_
  rintro _ rfl
  simp only [lowerExprs, Expr.address, lowerExpr, pure_bind, bind_assoc]
  exact (lowerExpr_plain hres hk).bind fun key' hkey => .pure ⟨key', hkey.1, hkey.2, rfl⟩

theorem lowerExpr_writeCall (hk : Plain C V key) (hv : Plain C V value) (place span : Span)
    (container : String) :
    Quiet (lowerExpr env lowerSeq (env.writeCall (.ident place container) key value span))
      fun r => ∃ key' value', (Plain C V key' ∧ ∀ A σ, key'.eval A σ = key.eval A σ) ∧
        (Plain C V value' ∧ ∀ A σ, value'.eval A σ = value.eval A σ) ∧
        r = env.writeCall (.ident place container) key' value' span := by
  refine (lowerExpr_ident _ _).bind ?_
  rintro _ rfl
  simp only [lowerExprs, lowerExpr, pure_bind, bind_assoc]
  refine (lowerExpr_plain hres hk).bind fun key' hkey => ?_
  exact (lowerExpr_plain hres hv).bind fun value' hvalue =>
    .pure ⟨key', value', hkey, hvalue, rfl⟩

/-- An assignment keeps its meaning: `a &= (^(b))` does what `a &^= b` does. -/
theorem lowerAssign_update (ht : Target C V target)
    (hop : op = .assign ∨ op.combines?.isSome = true) (hv : Plain C V value) :
    Quiet (lowerAssign env lowerSeq [target] op [value]) fun form => Update C V form ∧
      ∀ A σ, form.exec A env.options σ =
        StmtForm.exec A env.options σ (.assign [target] op [value]) := by
  unfold lowerAssign
  simp only [lowerExprs, bind_assoc, pure_bind]
  refine (lowerExpr_target hres ht).bind ?_
  rintro _ rfl
  refine (lowerExpr_plain hres hv).bind fun value' hvalue => ?_
  split
  · rename_i hand
    subst hand
    have hplain : Plain C V (complement value'.span value') :=
      .paren (.unary rfl (.paren hvalue.1))
    refine .pure ⟨.combine ht rfl hplain, fun A σ => ?_⟩
    have hbits (slot : Slot) (v : Int) :
        σ.combine A slot .bitAnd (A.unary .complement v) = σ.combine A slot .andNot v := by
      simp only [Store.combine, A.binary_andNot]
    have hbitAnd : AssignOp.combines? .bitAnd = some .bitAnd := rfl
    have handNot : AssignOp.combines? .andNot = some .andNot := rfl
    rw [map_singleton, exec_combine hbitAnd, exec_combine handNot]
    simp only [complement, Expr.eval, UnaryOp.isArithmetic, if_true, hvalue.2, Option.bind_map,
      Function.comp_def, hbits]
  · rename_i hand
    rcases hop with rfl | hop
    · refine .pure ⟨.assign ht hvalue.1, fun A σ => ?_⟩
      simp only [exec_assign hvalue.1, exec_assign hv, hvalue.2]
    · obtain ⟨b, hb⟩ := Option.isSome_iff_exists.1 hop
      refine .pure ⟨.combine ht hop hvalue.1, fun A σ => ?_⟩
      simp only [exec_combine hb, hvalue.2]

end

end Expressions

/-- A simple statement is lowered to one that does the same. -/
theorem lowerStmt_simple {frame} {C V : String → Prop} (hres : frame.env.resolver.Reports C)
    (fuel : Nat) {stmt} (h : Simple frame.env C V stmt.form) :
    Quiet (lowerStmt fuel frame stmt) fun out => Simple frame.env C V out.form ∧
      ∀ A σ, out.form.exec A frame.env.options σ = stmt.form.exec A frame.env.options σ := by
  obtain ⟨id, span, form⟩ := stmt
  cases fuel with
  | zero =>
    exact fun _ => trivial
  | succ fuel =>
    unfold lowerStmt
    cases h with
    | update h =>
      cases h with
      | assign ht he =>
        refine (lowerAssign_update hres ht (.inl rfl) he).bind fun form hf => .pure ?_
        exact ⟨.update hf.1, hf.2⟩
      | combine ht hop he =>
        refine (lowerAssign_update hres ht (.inr hop) he).bind fun form hf => .pure ?_
        exact ⟨.update hf.1, hf.2⟩
      | step ht =>
        refine (lowerExpr_target hres ht).bind ?_
        rintro _ rfl
        exact .pure ⟨.update (.step ht), fun _ _ => rfl⟩
      | lookup _ _ _ _ hc _ _ =>
        -- A rule takes this form away before; left in place, the subscript stops the run.
        simp only [lowerAssign, lowerExprs, lowerExpr, pure_bind, bind_assoc]
        rw [if_pos (isContainerRead_element hres hc _ _ _ _)]
        exact fun _ => trivial
    | declare hn => exact .pure ⟨.declare hn, fun _ _ => rfl⟩
    | get hc hn hk ht =>
      refine (lowerExpr_readCall hres hk _ _ _ _ _).bind ?_
      rintro _ ⟨key', hk', heval, rfl⟩
      refine .pure ⟨.get hc hn hk' ht, fun A σ => ?_⟩
      simp only [exec_get, heval]
    | set hc hn hk he =>
      refine (lowerExpr_writeCall hres hk he _ _ _).bind ?_
      rintro _ ⟨key', value', hk', hv', rfl⟩
      refine .pure ⟨.set hc hn hk'.1 hv'.1, fun A σ => ?_⟩
      simp only [exec_set he, exec_set hv'.1, hk'.2, hv'.2]
    | getFlag hf hc hn hk ht =>
      simp only [lowerAssign, lowerExprs, pure_bind, bind_assoc]
      refine (lowerExpr_ident _ _).bind ?_
      rintro _ rfl
      refine (lowerExpr_readCall hres hk _ _ _ _ _).bind ?_
      rintro _ ⟨key', hk', heval, rfl⟩
      refine .pure ⟨.getFlag hf hc hn hk' ht, fun A σ => ?_⟩
      simp only [exec_getFlag, heval]

/-! ## Taking a read out -/

section Extraction

variable {C V : String → Prop} {isRead : Expr → Bool} {temp : String} {x : Extraction Expr}

/-- A read of an element was taken out of `e`, and `temp` put in its place. With the element in
`temp`, what is left has the value of `e`. -/
structure Taken (C V : String → Prop) (temp : String) (e rest read : Expr) : Prop where
  plain : Plain C (fun name => V name ∨ name = temp) rest
  element : ∃ span place container key, C container ∧ V container ∧ Plain C V key ∧
    read = .index span (.ident place container) key
  eval : ∀ A σ v, read.eval A σ = some v → rest.eval A (σ.set temp v) = e.eval A σ

/-- Only subscripts are taken out. -/
def OnlySubscripts (isRead : Expr → Bool) : Prop :=
  ∀ e, isRead e = true → ∃ span base key, e = .index span base key

theorem OnlySubscripts.not_read (hread : OnlySubscripts isRead)
    (he : ∀ span base key, e ≠ .index span base key) : ¬ isRead e = true := by
  intro hr
  obtain ⟨span, base, key, rfl⟩ := hread e hr
  exact he span base key rfl

theorem extract_ident (hread : OnlySubscripts isRead) (guarded : Bool) (span : Span)
    (name : String) : extract isRead temp guarded (.ident span name) = none := by
  unfold extract
  rw [if_neg (hread.not_read (by simp))]

theorem extract_address (hread : OnlySubscripts isRead) (guarded : Bool) (span : Span)
    (name : String) : extract isRead temp guarded (Expr.ident span name).address = none := by
  unfold extract Expr.address
  rw [if_neg (hread.not_read (by simp))]
  simp only [extract_ident hread, around, Option.map_none]

theorem extract_taken (hread : OnlySubscripts isRead) (htemp : ¬ V temp) (he : Plain C V e)
    (h : extract isRead temp guarded e = some x) : Taken C V temp e x.rest x.read := by
  have hV (name : String) (hn : V name) : V name ∨ name = temp := .inl hn
  induction he generalizing guarded x with
  | ident _ => simp [extract_ident hread] at h
  | int =>
    unfold extract at h
    rw [if_neg (hread.not_read (by simp))] at h
    simp at h
  | paren _ ih =>
    unfold extract at h
    rw [if_neg (hread.not_read (by simp))] at h
    obtain ⟨y, hy, rfl⟩ := around_eq_some.1 h
    have ht := ih hy
    exact ⟨.paren ht.plain, ht.element, fun A σ v hv => ht.eval A σ v hv⟩
  | unary hop _ ih =>
    unfold extract at h
    rw [if_neg (hread.not_read (by simp))] at h
    obtain ⟨y, hy, rfl⟩ := around_eq_some.1 h
    have ht := ih hy
    refine ⟨.unary hop ht.plain, ht.element, fun A σ v hv => ?_⟩
    simp only [Extraction.map, Expr.eval, ht.eval A σ v hv]
  | binary hl hr ihl ihr =>
    unfold extract at h
    rw [if_neg (hread.not_read (by simp))] at h
    rcases around_orElse h with ⟨y, hy, rfl⟩ | ⟨y, hy, rfl⟩
    · have ht := ihl hy
      refine ⟨.binary ht.plain (hr.mono hV), ht.element, fun A σ v hv => ?_⟩
      simp only [Extraction.map, Expr.eval, ht.eval A σ v hv, hr.eval_set htemp]
    · -- The read is made before the left operand is evaluated, which does not see `temp`.
      have ht := ihr hy
      refine ⟨.binary (hl.mono hV) ht.plain, ht.element, fun A σ v hv => ?_⟩
      simp only [Extraction.map, Expr.eval, ht.eval A σ v hv, hl.eval_set htemp]
  | element hc hn hk ih =>
    unfold extract at h
    split at h
    · cases h
      refine ⟨.ident (.inr rfl), ⟨_, _, _, _, hc, hn, hk, rfl⟩, fun A σ v hv => ?_⟩
      rw [hv]
      simp [Expr.eval, Store.set]
    · rcases around_orElse h with ⟨y, hy, rfl⟩ | ⟨y, hy, rfl⟩
      · unfold extract at hy
        rw [if_neg (hread.not_read (by simp))] at hy
        simp at hy
      · have ht := ih hy
        refine ⟨.element hc (hV _ hn) ht.plain, ht.element, fun A σ v hv => ?_⟩
        simp only [Extraction.map, Expr.eval, ht.eval A σ v hv]
        rfl

end Extraction

/-! ## Rules -/

section Rules

variable {env : Env} {C V W : String → Prop} {stmt : Stmt} {stmts out : List Stmt} {k k' : Nat}

/-- Whatever `out` does to the containers and to the variables in `V`, `stmts` does. -/
def Refines (env : Env) (V : String → Prop) (stmts out : List Stmt) : Prop :=
  ∀ A σ τ, run A env.options out σ = some τ →
    ∃ τ', run A env.options stmts σ = some τ' ∧ τ'.Agree V τ

theorem Refines.mono (h : Refines env W stmts out) (hV : ∀ name, V name → W name) :
    Refines env V stmts out := by
  intro A σ τ hτ
  obtain ⟨τ', hτ', hagree⟩ := h A σ τ hτ
  exact ⟨τ', hτ', hagree.mono hV⟩

theorem Refines.of_exec_eq {form form'}
    (h : ∀ A σ, form'.exec A env.options σ = form.exec A env.options σ) :
    Refines env V [⟨id, span, form⟩] [⟨id', span', form'⟩] := by
  intro A σ τ hτ
  simp only [run, h] at hτ ⊢
  exact ⟨τ, hτ, .refl V τ⟩

/-- The statements a rule leaves. -/
def Replacement.on (r : Replacement) (stmt : Stmt) : List Stmt :=
  r.before ++ [⟨stmt.id, stmt.span, r.form⟩]

/-- Statements that stand for `stmt`, written when the counter went from `k` to `k'`. -/
def Sound (env : Env) (C : String → Prop) (stmt : Stmt) (k k' : Nat) (out : List Stmt) : Prop :=
  (∀ x ∈ out, Simple env C (env.options.Below k') x.form) ∧
    Refines env (env.options.Below k) [stmt] out

/-- What a rule gives that was tried with the counter at `k`: a sound replacement, or nothing, and
then `Q` is known. -/
def Tried (env : Env) (C : String → Prop) (stmt : Stmt) (k : Nat) (Q : Prop)
    (r : Option Replacement) (s : State) : Prop :=
  k ≤ s.discards ∧ (∀ x ∈ r, Sound env C stmt k s.discards (x.on stmt)) ∧ (r = none → Q)

/-- A rule gives something sound for a simple statement, or nothing, and then `Q` is known. -/
def SoundRule (env : Env) (C : String → Prop) (stmt : Stmt) (rule : LowerM (Option Replacement))
    (Q : Prop) : Prop :=
  ∀ s, Simple env C (env.options.Below s.discards) stmt.form →
    Ensures rule (Tried env C stmt s.discards Q) (fun _ => True) s

theorem orTry_tried {result rule} {P : Prop} (hstmt : Simple env C (env.options.Below k) stmt.form)
    (hresult : Tried env C stmt k P result s) (hrule : P → SoundRule env C stmt rule Q) :
    Ensures (orTry result rule) (Tried env C stmt k (P ∧ Q)) (fun _ => True) s := by
  have hbelow (name : String) (hn : env.options.Below k name) :
      env.options.Below s.discards name := hn.mono hresult.1
  cases result with
  | some r => exact ⟨hresult.1, hresult.2.1, by simp⟩
  | none =>
    have hP := hresult.2.2 rfl
    refine (hrule hP s (hstmt.mono hbelow)).mono ?_ fun _ _ => trivial
    rintro r s' ⟨hs', hr, hQ⟩
    refine ⟨hresult.1.trans hs', fun x hx => ?_, fun hnone => ⟨hP, hQ hnone⟩⟩
    exact ⟨(hr x hx).1, (hr x hx).2.mono hbelow⟩

theorem Tried.none (hQ : Q) (s : State) : Tried env C stmt s.discards Q none s :=
  ⟨le_rfl, by simp, fun _ => hQ⟩

theorem Tried.some {r s'} (hs : s.discards ≤ s'.discards)
    (hr : Sound env C stmt s.discards s'.discards (r.on stmt)) :
    Tried env C stmt s.discards Q (some r) s' :=
  ⟨hs, by simpa using hr, by simp⟩

/-- An assignment to an element is a call that writes it. -/
theorem writeElement_sound {r} (h : Simple env C (env.options.Below k) stmt.form)
    (hr : writeElement env stmt = some r) : Sound env C stmt k k (r.on stmt) := by
  obtain ⟨id, span, form⟩ := stmt
  unfold writeElement at hr
  split at hr
  · rename_i place base key value hform
    subst hform
    split at hr
    · cases hr
      cases h with
      | update h =>
        cases h with
        | assign ht he =>
          cases ht with
          | element hc hn hk =>
            refine ⟨by simpa [Replacement.on] using .set hc hn hk he, .of_exec_eq fun A σ => ?_⟩
            rw [exec_set he, exec_assign he, Expr.slot, Option.bind_map]
            rfl
        | combine _ hop _ => cases hop
    · cases hr
  · cases hr

theorem isBlank_ident (h : name ≠ "_") : (Expr.ident span name).isBlank = false := by
  simpa [Expr.isBlank, Expr.name?] using h

/-- A variable that is not defined receives an element as it is. -/
theorem readInto_ident (hres : env.resolver.Reports C) (hc : C container) {target}
    (htarget : target ≠ "_") (declared : List String) (key : Expr) (second? : Option Expr) :
    readInto env declared stmt false (.index span (.ident place container) key)
        (.ident place container) key (.ident targetSpan target) second? =
      pure (some ⟨[], env.readForm (.ident place container) key (.ident targetSpan target)
        (second?.filter fun target => !target.isBlank) stmt.span⟩) := by
  have hflag (flag? : Option Expr) : flagVars declared false flag? = [] := by
    unfold flagVars
    split <;> simp
  unfold readInto Env.isElement
  rw [if_pos (isContainerRead_element hres hc _ _ _ _)]
  simp [readTarget, isBlank_ident htarget, hflag, declareAny]

/-- A statement that only looks an element up is a call that reads it. What is left has one target
at most. -/
theorem readElement_sound (hres : env.resolver.Reports C) (declared : List String)
    (hw : writeElement env stmt = none) :
    SoundRule env C stmt (readElement env declared stmt)
      (∀ first second op value, stmt.form ≠ .assign [first, second] op [value]) := by
  obtain ⟨id, span, form⟩ := stmt
  intro s h
  unfold readElement
  split
  · rename_i targets op place base key hform
    subst hform
    cases h with
    | update h =>
      cases h with
      | assign ht he =>
        cases he with
        | element hc hn hk =>
          cases ht with
          | var ht htb =>
            simp only [AssignOp.combines?, Option.isSome_none, Bool.false_eq_true, if_false,
              show (AssignOp.assign == AssignOp.define) = false from rfl,
              readInto_ident hres hc htb, ensures_pure]
            refine .some le_rfl ⟨?_, .of_exec_eq fun A σ => ?_⟩
            · simpa [Replacement.on] using .get hc hn hk ht
            · rw [exec_assign (.element hc hn hk)]
              simp only [Option.filter_none, Env.readForm, exec_get, Expr.slot, Expr.eval,
                Option.bind_some, Option.map_map]
              rfl
          | element hc' _ _ =>
            -- `m[k] = n[l]` is a write first
            simp [writeElement, Env.isElement, isContainerRead_element hres hc'] at hw
      | combine _ hop _ =>
        rw [if_pos hop]
        exact .none (by simp) s
      | lookup ht htb hf hfb hc hn hk =>
        simp only [AssignOp.combines?, Option.isSome_none, Bool.false_eq_true, if_false,
          show (AssignOp.assign == AssignOp.define) = false from rfl,
          readInto_ident hres hc htb, ensures_pure]
        refine .some le_rfl ⟨?_, .of_exec_eq fun A σ => ?_⟩
        · simpa [Replacement.on, Option.filter, isBlank_ident hfb, Env.readForm] using
            .getFlag hf hc hn hk ht
        · simp only [Option.filter, isBlank_ident hfb, Bool.not_false, if_true, Env.readForm,
            exec_getFlag, exec_lookup]
  · rename_i hform
    refine .none (fun first second op value heq => ?_) s
    rw [heq] at h
    cases h with
    | update h =>
      cases h with
      | lookup => exact hform _ _ _ _ _ heq

/-- A simple statement defines nothing. -/
theorem splitDefinition_sound (declared : List String) :
    SoundRule env C stmt (splitDefinition env declared stmt) True := by
  obtain ⟨id, span, form⟩ := stmt
  intro s h
  unfold splitDefinition
  split
  · rename_i targets value hform
    subst hform
    cases h with
    | update h =>
      cases h with
      | combine _ hop _ => cases hop
  · exact .none trivial s

/-- No call in a simple statement has several results. -/
theorem completeCall_sound : SoundRule env C stmt (completeCall env stmt) True := by
  obtain ⟨id, span, form⟩ := stmt
  intro s h
  unfold completeCall
  split
  · rename_i targets place callee args spread hform
    subst hform
    cases h with
    | update h =>
      cases h with
      | assign _ he => cases he
      | combine _ hop _ => cases hop
    | getFlag _ _ _ _ _ => exact .none trivial s
  · exact .none trivial s

theorem combines?_isShortCircuit {b} (h : op.combines? = some b) : b.isShortCircuit = false := by
  cases op <;> cases h <;> rfl

/-- The element that a simple statement updates, and what the update does. -/
theorem elementUpdate?_simple (h : Simple env C V stmt.form) {b}
    (hu : elementUpdate? env stmt = some (target, b, value)) :
    ∃ span place container key, target = .index span (.ident place container) key ∧
      C container ∧ V container ∧ Plain C V key ∧ Plain C V value ∧ b.isShortCircuit = false ∧
      ∀ A σ, stmt.form.exec A env.options σ =
        (key.eval A σ).bind fun k =>
          (value.eval A σ).bind (σ.combine A (.element container k) b) := by
  obtain ⟨id, place, form⟩ := stmt
  have hindex : ∀ {e : Expr}, Target C V e → env.isElement place e = true →
      ∃ span at_ container key, e = .index span (.ident at_ container) key ∧ C container ∧
        V container ∧ Plain C V key := by
    intro e ht he
    cases ht with
    | var _ _ => cases he
    | element hc hn hk => exact ⟨_, _, _, _, rfl, hc, hn, hk⟩
  cases h with
  | update h =>
    cases h with
    | assign ht he => simp [elementUpdate?, AssignOp.combines?] at hu
    | combine ht hop he =>
      obtain ⟨b', hb⟩ := Option.isSome_iff_exists.1 hop
      simp only [elementUpdate?, hb, Option.bind_eq_bind, Option.bind_some,
        Option.ite_none_right_eq_some, Option.some.injEq, Prod.mk.injEq] at hu
      obtain ⟨hel, rfl, rfl, rfl⟩ := hu
      obtain ⟨span, at_, container, key, rfl, hc, hn, hk⟩ := hindex ht hel
      refine ⟨span, at_, container, key, rfl, hc, hn, hk, he, combines?_isShortCircuit hb, ?_⟩
      intro A σ
      rw [exec_combine hb, Expr.slot, Option.bind_map]
      rfl
    | step ht =>
      simp only [elementUpdate?, Option.ite_none_right_eq_some, Option.some.injEq,
        Prod.mk.injEq] at hu
      obtain ⟨hel, rfl, rfl, rfl⟩ := hu
      obtain ⟨span, at_, container, key, rfl, hc, hn, hk⟩ := hindex ht hel
      refine ⟨span, at_, container, key, rfl, hc, hn, hk, .int, by split <;> rfl, ?_⟩
      intro A σ
      rw [exec_step, Expr.slot, Option.bind_map]
      simp only [Expr.eval, A.literal_one]
      rfl
    | lookup => simp [elementUpdate?] at hu
  | declare | get | set => simp [elementUpdate?] at hu
  | getFlag => simp [elementUpdate?, AssignOp.combines?] at hu

/-- A temporary that holds an element: it is declared and read into in front of the statement that
uses it. -/
theorem run_hoisted {A σ temp} (hk : Plain C V key) (htemp : ¬ V temp) {type callSpan declSpan}
    (last : Stmt) : run A env.options [⟨id, span, .decl (varDecl [(temp, type)] declSpan)⟩,
        ⟨id', span', .expr (env.readCall (.ident place container) key (.ident targetSpan temp)
          callSpan)⟩, last] σ =
      (key.eval A σ).bind fun k =>
        last.form.exec A env.options (σ.set temp (σ.element container k)) := by
  simp only [run, exec_declare, exec_get, Option.bind_some, hk.eval_set htemp, Option.bind_map]
  congr 1
  funext k
  simp

/-- The step of every rule that puts an element into a temporary: what is left has to do, with the
element in the temporary, what `stmt` does without it. -/
theorem hoisted_sound {rest} (hc : C container) (hn : env.options.Below k container)
    (hk : Plain C (env.options.Below k) key) (hrest : Simple env C (env.options.Below (k + 1)) rest)
    (hexec : ∀ A σ n τ, key.eval A σ = some n →
      rest.exec A env.options (σ.set (env.options.discardName k) (σ.element container n)) =
        some τ →
      ∃ τ', stmt.form.exec A env.options σ = some τ' ∧ τ'.Agree (env.options.Below k) τ)
    {type id'' span'' callSpan declSpan} : Sound env C stmt k (k + 1)
      [⟨id, span, .decl (varDecl [(env.options.discardName k, type)] declSpan)⟩,
        ⟨id', span', .expr (env.readCall (.ident place container) key
          (.ident targetSpan (env.options.discardName k)) callSpan)⟩,
        ⟨id'', span'', rest⟩] := by
  have htemp : env.options.Below (k + 1) (env.options.discardName k) :=
    Options.below_discardName (Nat.lt_succ_self k)
  have hbelow (name : String) (h : env.options.Below k name) :
      env.options.Below (k + 1) name := h.mono (Nat.le_succ k)
  constructor
  · have hget : Simple env C (env.options.Below (k + 1))
        (.expr (env.readCall (.ident place container) key
          (.ident targetSpan (env.options.discardName k)) callSpan)) :=
      .get hc (hbelow _ hn) (hk.mono hbelow) htemp
    exact forall_mem_cons.2 ⟨.declare htemp, forall_mem_cons.2 ⟨hget,
      forall_mem_singleton.2 hrest⟩⟩
  · intro A σ τ hτ
    rw [run_hoisted hk Options.not_below_discardName] at hτ
    obtain ⟨n, hn, hτ⟩ := Option.bind_eq_some_iff.1 hτ
    obtain ⟨τ', hτ', hagree⟩ := hexec A σ n τ hn hτ
    exact ⟨τ', by simp [run, hτ'], hagree⟩

theorem updateElement_sound :
    SoundRule env C stmt (updateElement env stmt) (elementUpdate? env stmt = none) := by
  intro s h
  unfold updateElement
  cases hu : elementUpdate? env stmt with
  | none => exact .none rfl s
  | some update =>
    obtain ⟨target, b, value⟩ := update
    obtain ⟨span, place, container, key, rfl, hc, hn, hk, hv, hb, hexec⟩ :=
      elementUpdate?_simple h hu
    dsimp only
    split
    · trivial
    · simp only [ensures_bind, ensures_requireType]
      split
      · simp only [ensures_bind, ensures_newName, ensures_declareVars, ensures_newStmt,
          ensures_pure]
        have hbelow (name : String) (h : env.options.Below s.discards name) :
            env.options.Below (s.discards + 1) name := h.mono (Nat.le_succ _)
        have htemp : env.options.Below (s.discards + 1) (env.options.discardName s.discards) :=
          Options.below_discardName (Nat.lt_succ_self _)
        have hupdated : Plain C (env.options.Below (s.discards + 1)) (.binary stmt.span b
            (.ident place (env.options.discardName s.discards)) value) :=
          .binary (.ident htemp) (hv.mono hbelow)
        refine .some (Nat.le_succ _) (hoisted_sound hc hn hk ?_ ?_)
        · exact .set hc (hbelow _ hn) (hk.mono hbelow) hupdated
        · intro A σ n τ hkey hτ
          simp only [Expr.span, exec_set hupdated, hk.eval_set Options.not_below_discardName, hkey,
            Option.bind_some, Expr.eval, A.apply_of_strict hb,
            hv.eval_set Options.not_below_discardName] at hτ
          obtain ⟨r, hr, rfl⟩ := Option.map_eq_some_iff.1 hτ
          obtain ⟨v, hvalue, hr⟩ := Option.bind_eq_some_iff.1 hr
          -- the two stores differ in the temporary only
          have hset := (Store.Agree.refl (env.options.Below s.discards) σ).set_left
            Options.not_below_discardName (σ.element container n)
          have hr : A.binary b (σ.element container n) v = some r := by
            simpa [Store.set] using hr
          refine ⟨σ.put container n r, ?_, hset.symm.put container n r⟩
          simp [hexec, hkey, hvalue, Store.combine, Store.read, Store.write, hr]
      · trivial

end Rules

/-! ## Hoisting a read -/

section Hoisting

variable {env : Env} {C V : String → Prop} {stmt : Stmt} {isRead : Expr → Bool} {temp : String}

theorem extract_readCall (hread : OnlySubscripts isRead) {target} (h : extract isRead temp guarded
      (env.readCall (.ident place container) key (.ident targetSpan target) span) = some x) :
    ∃ y, extract isRead temp guarded key = some y ∧
      x = y.map fun key => env.readCall (.ident place container) key (.ident targetSpan target)
        span := by
  unfold Env.readCall Expr.callOf extract at h
  rw [if_neg (hread.not_read (by simp))] at h
  simp only [extractList, extract_ident hread, extract_address hread] at h
  cases hkey : extract isRead temp guarded key with
  | none => simp [hkey, around] at h
  | some y =>
    refine ⟨y, rfl, ?_⟩
    simpa [hkey, around, Extraction.map, Env.readCall, Expr.callOf] using h.symm

theorem extract_writeCall (hread : OnlySubscripts isRead) (h : extract isRead temp guarded
      (env.writeCall (.ident place container) key value span) = some x) :
    (∃ y, extract isRead temp guarded key = some y ∧
      x = y.map fun key => env.writeCall (.ident place container) key value span) ∨
    ∃ y, extract isRead temp guarded value = some y ∧
      x = y.map fun value => env.writeCall (.ident place container) key value span := by
  unfold Env.writeCall Expr.callOf extract at h
  rw [if_neg (hread.not_read (by simp))] at h
  simp only [extractList, extract_ident hread] at h
  cases hkey : extract isRead temp guarded key with
  | some y =>
    refine .inl ⟨y, rfl, ?_⟩
    simpa [hkey, around, Extraction.map, Env.writeCall, Expr.callOf] using h.symm
  | none =>
    cases hvalue : extract isRead temp guarded value with
    | none => simp [hkey, hvalue, around] at h
    | some y =>
      refine .inr ⟨y, rfl, ?_⟩
      simpa [hkey, hvalue, around, Extraction.map, Env.writeCall, Expr.callOf] using h.symm

theorem extractForm_assign (hread : OnlySubscripts isRead) {x}
    (h : extractForm isRead temp (.assign [.ident span name] op [value]) = some x) :
    ∃ y, extract isRead temp false value = some y ∧
      x = y.map fun value => .assign [.ident span name] op [value] := by
  simp only [extractForm, extractTargets, extractTarget, extractList, extract_ident hread] at h
  cases hvalue : extract isRead temp false value with
  | none => simp [hvalue, around] at h
  | some y =>
    refine ⟨y, rfl, ?_⟩
    simpa [hvalue, around, Extraction.map] using h.symm

/-- A read was taken out of the expressions of a statement. With the element in `temp`, what is
left does what the statement does. -/
structure TakenForm (env : Env) (C V : String → Prop) (temp : String) (form rest : StmtForm)
    (read : Expr) : Prop where
  simple : Simple env C (fun name => V name ∨ name = temp) rest
  element : ∃ span place container key, C container ∧ V container ∧ Plain C V key ∧
    read = .index span (.ident place container) key
  exec : ∀ A σ v, read.eval A σ = some v →
    rest.exec A env.options (σ.set temp v) = form.exec A env.options (σ.set temp v)

theorem extractForm_taken (hres : env.resolver.Reports C) (hread : OnlySubscripts isRead)
    (htemp : ¬ V temp) (h : Simple env C V stmt.form) (hw : writeElement env stmt = none)
    (hl : ∀ first second op value, stmt.form ≠ .assign [first, second] op [value])
    (hu : elementUpdate? env stmt = none) {x} (hx : extractForm isRead temp stmt.form = some x) :
    TakenForm env C V temp stmt.form x.rest x.read := by
  obtain ⟨id, span, form⟩ := stmt
  have hV (name : String) (hn : V name) : V name ∨ name = temp := .inl hn
  have heval {e rest read : Expr} (he : Plain C V e) (ht : Taken C V temp e rest read)
      (A : Arithmetic) (σ : Store) (v : Int) (hv : read.eval A σ = some v) :
      rest.eval A (σ.set temp v) = e.eval A (σ.set temp v) := by
    rw [ht.eval A σ v hv, he.eval_set htemp]
  cases h with
  | update h =>
    cases h with
    | assign ht he =>
      cases ht with
      | var hn hb =>
        obtain ⟨y, hy, rfl⟩ := extractForm_assign hread hx
        have htaken := extract_taken hread htemp he hy
        refine ⟨.update (.assign (.var (hV _ hn) hb) htaken.plain), htaken.element, ?_⟩
        intro A σ v hv
        simp only [Extraction.map, exec_assign he, exec_assign htaken.plain,
          heval he htaken A σ v hv]
      | element hc _ _ => simp [writeElement, Env.isElement, isContainerRead_element hres hc] at hw
    | combine ht hop he =>
      cases ht with
      | var hn hb =>
        obtain ⟨b, hop'⟩ := Option.isSome_iff_exists.1 hop
        obtain ⟨y, hy, rfl⟩ := extractForm_assign hread hx
        have htaken := extract_taken hread htemp he hy
        refine ⟨.update (.combine (.var (hV _ hn) hb) hop htaken.plain), htaken.element, ?_⟩
        intro A σ v hv
        simp only [Extraction.map, exec_combine hop', heval he htaken A σ v hv]
      | element hc _ _ =>
        obtain ⟨b, hb⟩ := Option.isSome_iff_exists.1 hop
        simp [elementUpdate?, hb, Env.isElement, isContainerRead_element hres hc] at hu
    | step ht =>
      cases ht with
      | var hn hb => simp [extractForm, extractTarget, extract_ident hread, around] at hx
      | element hc _ _ =>
        simp [elementUpdate?, Env.isElement, isContainerRead_element hres hc] at hu
    | lookup => exact absurd rfl (hl _ _ _ _)
  | declare hn => simp [extractForm, extractSpecs, extractList, varDecl, around] at hx
  | get hc hn hk ht =>
    obtain ⟨y, hy, rfl⟩ := around_eq_some.1 hx
    obtain ⟨z, hz, rfl⟩ := extract_readCall hread hy
    have htaken := extract_taken hread htemp hk hz
    refine ⟨.get hc (hV _ hn) htaken.plain (hV _ ht), htaken.element, fun A σ v hv => ?_⟩
    simp only [Extraction.map, exec_get, heval hk htaken A σ v hv]
  | set hc hn hk he =>
    obtain ⟨y, hy, rfl⟩ := around_eq_some.1 hx
    rcases extract_writeCall hread hy with ⟨z, hz, rfl⟩ | ⟨z, hz, rfl⟩
    · have htaken := extract_taken hread htemp hk hz
      refine ⟨.set hc (hV _ hn) htaken.plain (he.mono hV), htaken.element, fun A σ v hv => ?_⟩
      simp only [Extraction.map, exec_set he, heval hk htaken A σ v hv]
    · have htaken := extract_taken hread htemp he hz
      refine ⟨.set hc (hV _ hn) (hk.mono hV) htaken.plain, htaken.element, fun A σ v hv => ?_⟩
      simp only [Extraction.map, exec_set he, exec_set htaken.plain, heval he htaken A σ v hv]
  | getFlag hf hc hn hk ht =>
    obtain ⟨y, hy, rfl⟩ := extractForm_assign hread hx
    obtain ⟨z, hz, rfl⟩ := extract_readCall hread hy
    have htaken := extract_taken hread htemp hk hz
    refine ⟨.getFlag (hV _ hf) hc (hV _ hn) htaken.plain (hV _ ht), htaken.element, ?_⟩
    intro A σ v hv
    simp only [Extraction.map, exec_getFlag, heval hk htaken A σ v hv]

theorem isElement_onlySubscripts (env : Env) (place : Span) :
    OnlySubscripts (env.isElement place) :=
  fun _ he => index_of_isElement he

theorem hoistRead_sound (hres : env.resolver.Reports C) (hw : writeElement env stmt = none)
    (hl : ∀ first second op value, stmt.form ≠ .assign [first, second] op [value])
    (hu : elementUpdate? env stmt = none) : SoundRule env C stmt (hoistRead env stmt) True := by
  intro s h
  unfold hoistRead
  simp only [ensures_bind, ensures_get]
  split
  · rename_i found hfound
    obtain ⟨hsimple, ⟨span, place, container, key, hc, hn, hk, hread⟩, hexec⟩ :=
      extractForm_taken hres (isElement_onlySubscripts env stmt.span)
        Options.not_below_discardName h hw hl hu hfound
    obtain ⟨rest, read, guarded⟩ := found
    subst hread
    have hsound (id id' : NodeId) (type : TypeExpr) :
        Sound env C stmt s.discards (s.discards + 1) (Replacement.on ⟨[
          ⟨id, stmt.span, .decl (varDecl [(env.options.discardName s.discards, type)] stmt.span)⟩,
          ⟨id', stmt.span, .expr (env.readCall (.ident place container) key
            (.ident span (env.options.discardName s.discards)) span)⟩], rest⟩ stmt) := by
      refine hoisted_sound hc hn hk (hsimple.mono ?_) ?_
      · rintro name (hname | rfl)
        · exact hname.mono (Nat.le_succ _)
        · exact Options.below_discardName (Nat.lt_succ_self _)
      · intro A σ n τ hkey hτ
        have hset := (Store.Agree.refl (env.options.Below s.discards) σ).set_left
          Options.not_below_discardName (σ.element container n)
        rw [hexec A σ _ (by simp [Expr.eval, hkey])] at hτ
        obtain ⟨τ', hτ', hagree⟩ := h.exec_congr hset hτ
        exact ⟨τ', hτ', hagree.symm⟩
    -- The warning about a guarded read changes nothing that is said here.
    cases guarded
    all_goals
      simp only [Bool.false_eq_true, if_false, if_true, ensures_bind, ensures_newName,
        ensures_requireType]
      split
      · simp only [ensures_bind, ensures_warn, ensures_declareVars, ensures_newStmt, ensures_pure]
        exact .some (Nat.le_succ _) (hsound _ _ _)
      · trivial
  · exact .none trivial s

/-- Whatever rule applies to a simple statement, it is sound. -/
theorem replaceStmt_sound (hres : env.resolver.Reports C) (declared : List String) :
    SoundRule env C stmt (replaceStmt env declared stmt) True := by
  intro s h
  have hwrite : Tried env C stmt s.discards (writeElement env stmt = none)
      (writeElement env stmt) s :=
    ⟨le_rfl, fun r hr => writeElement_sound h hr, fun hnone => hnone⟩
  refine Ensures.bind (orTry_tried h hwrite fun hw => readElement_sound hres declared hw)
    fun r s1 h1 => ?_
  refine Ensures.bind (orTry_tried h h1 fun _ => splitDefinition_sound declared)
    fun r s2 h2 => ?_
  refine Ensures.bind (orTry_tried h h2 fun _ => completeCall_sound) fun r s3 h3 => ?_
  refine Ensures.bind (orTry_tried h h3 fun _ => updateElement_sound) fun r s4 h4 => ?_
  have hlast := orTry_tried h h4 fun hnone =>
    hoistRead_sound hres hnone.1.1.1.1 hnone.1.1.1.2 hnone.2
  exact hlast.mono (fun r s' hr => ⟨hr.1, hr.2.1, fun _ => trivial⟩) fun _ _ => trivial

end Hoisting

/-! ## The walk -/

section Walk

variable {env : Env} {frame : Frame} {C V W : String → Prop} {stmt stmt' : Stmt}
  {stmts rest out : List Stmt}

theorem Refines.cons
    (hstmt : ∀ A σ, stmt'.form.exec A env.options σ = stmt.form.exec A env.options σ)
    (h : Refines env V rest out) : Refines env V (stmt :: rest) (stmt' :: out) := by
  intro A σ τ hτ
  obtain ⟨μ, hμ, hτ⟩ := Option.bind_eq_some_iff.1 hτ
  obtain ⟨τ', hτ', hagree⟩ := h A μ τ hτ
  refine ⟨τ', ?_, hagree⟩
  simp only [run, ← hstmt, hμ, Option.bind_some, hτ']

/-- Statements that refine the first of a sequence may stand in its place, as long as the others
do not depend on what they leave behind. -/
theorem Refines.revisit (hstmt : Refines env V [stmt] stmts)
    (hrest : ∀ x ∈ rest, Simple env C V x.form) (hVW : ∀ name, V name → W name)
    (h : Refines env W (stmts ++ rest) out) : Refines env V (stmt :: rest) out := by
  intro A σ τ hτ
  obtain ⟨τ1, hτ1, hout⟩ := h A σ τ hτ
  rw [run_append] at hτ1
  obtain ⟨μ, hμ, hτ1⟩ := Option.bind_eq_some_iff.1 hτ1
  obtain ⟨μ', hμ', hagree⟩ := hstmt A σ μ hμ
  -- `rest` runs from `μ'` as it did from `μ`: it reads no name outside `V`
  obtain ⟨τ2, hτ2, hagree'⟩ := run_congr hrest hagree.symm hτ1
  refine ⟨τ2, ?_, hagree'.symm.trans (hout.mono hVW)⟩
  have hexec : stmt.form.exec A env.options σ = some μ' := by
    simpa [run] using hμ'
  simp only [run, hexec, Option.bind_some, hτ2]

/-- A step at a simple statement enters it, or goes on with statements that are sound for it. -/
def Step.SoundFor (env : Env) (C : String → Prop) (stmt : Stmt) (k : Nat) (step : Step)
    (s : State) : Prop :=
  k ≤ s.discards ∧ match step with
    | .enter entered more => entered = stmt ∧ more = []
    | .revisit stmts => Sound env C stmt k s.discards stmts

theorem stepAt_simple (hres : frame.env.resolver.Reports C) (fuel : Nat) (declared : List String)
    (h : Simple frame.env C (frame.env.options.Below s.discards) stmt.form) :
    Ensures (stepAt fuel frame declared stmt) (Step.SoundFor frame.env C stmt s.discards)
      (fun _ => True) s := by
  cases fuel with
  | zero =>
    trivial
  | succ fuel =>
    have hstep : stepAt (fuel + 1) frame declared stmt = stepOf frame declared stmt := by
      obtain ⟨id, span, form⟩ := stmt
      cases h with
      | update h => cases h <;> simp [stepAt, hoistInit]
      | _ => simp [stepAt, hoistInit]
    have hsplit : splitVarDecl frame.env stmt = pure none := by
      obtain ⟨id, span, form⟩ := stmt
      cases h with
      | update h => cases h <;> rfl
      | _ => rfl
    have hreturn (plan : ReturnPlan) : lowerReturn frame.env plan stmt = pure none := by
      obtain ⟨id, span, form⟩ := stmt
      cases h with
      | update h => cases h <;> rfl
      | _ => rfl
    rw [hstep]
    unfold stepOf
    simp only [hsplit, hreturn, pure_bind]
    refine (replaceStmt_sound hres declared s h).bind ?_
    rintro r s1 ⟨hs1, hr, -⟩
    cases r with
    | some r => exact ⟨hs1, hr r rfl⟩
    | none =>
      cases frame.plan with
      | some plan => exact ⟨hs1, rfl, rfl⟩
      | none => exact ⟨hs1, rfl, rfl⟩

/-- Lowering a sequence of simple statements refines it. -/
theorem lowerSeq_simple (hres : frame.env.resolver.Reports C) (fuel : Nat)
    (declared : List String) (stmts : List Stmt) (s : State)
    (h : ∀ x ∈ stmts, Simple frame.env C (frame.env.options.Below s.discards) x.form) :
    Ensures (lowerSeq fuel frame declared stmts)
      (fun out s' => s.discards ≤ s'.discards ∧
        (∀ x ∈ out, Simple frame.env C (frame.env.options.Below s'.discards) x.form) ∧
        Refines frame.env (frame.env.options.Below s.discards) stmts out)
      (fun _ => True) s := by
  -- Every visit takes fuel, so the induction covers what a rule wrote as well as the rest. The
  -- statements stay simple over the names below the counter, and the counter only grows.
  induction fuel generalizing declared stmts s with
  | zero =>
    trivial
  | succ fuel ih =>
    cases stmts with
    | nil => exact ⟨le_rfl, by simp, fun A σ τ hτ => ⟨τ, hτ, .refl _ τ⟩⟩
    | cons stmt rest =>
      obtain ⟨hstmt, hrest⟩ := forall_mem_cons.1 h
      have hlegal : Ensures (requireLegal (stmt.ownViolations.map Violation.report))
          (fun _ s' => s' = s) (fun _ => True) s := by
        rw [ensures_requireLegal]
        split <;> trivial
      refine hlegal.bind ?_
      rintro _ _ rfl
      refine (stepAt_simple hres fuel declared hstmt).bind ?_
      rintro step s1 ⟨hs1, hstep⟩
      have hbelow (name : String) (hn : frame.env.options.Below _ name) :
          frame.env.options.Below s1.discards name := hn.mono hs1
      cases step with
      | revisit stmts =>
        have hall : ∀ x ∈ stmts ++ rest,
            Simple frame.env C (frame.env.options.Below s1.discards) x.form :=
          forall_mem_append.2 ⟨hstep.1, fun x hx => (hrest x hx).mono hbelow⟩
        refine (ih declared (stmts ++ rest) s1 hall).mono ?_ fun _ _ => trivial
        rintro out s' ⟨hs', hout, hrefines⟩
        exact ⟨hs1.trans hs', hout, hstep.2.revisit hrest hbelow hrefines⟩
      | enter entered more =>
        obtain ⟨rfl, rfl⟩ := hstep
        refine (lowerStmt_simple hres fuel (hstmt.mono hbelow) s1).bind ?_
        rintro stmt' _ ⟨rfl, hstmt', hexec⟩
        refine (ih _ rest _ fun x hx => (hrest x hx).mono hbelow).bind ?_
        rintro out s' ⟨hs', hout, hrefines⟩
        refine ⟨hs1.trans hs', ?_, .cons hexec (hrefines.mono hbelow)⟩
        exact forall_mem_cons.2 ⟨hstmt'.mono fun name hn => hn.mono hs', hout⟩

/-- Lowering an update keeps its meaning. When the statements it is lowered to have an outcome,
the update has one with the same containers and the same values of all variables, the
temporaries apart; and they have an outcome when no operator refuses its operands. (A read to the
right of a logical operator is made whether or not the left side decides, so an update may have an
outcome when they have none.) -/
theorem lowerSeq_preserves_update (hres : frame.env.resolver.Reports C) (fuel : Nat)
    (declared : List String) {s s' : State}
    (hstmt : Update C (frame.env.options.Below s.discards) stmt.form)
    (hlow : lowerSeq fuel frame declared [stmt] s = .ok (out, s')) (A : Arithmetic) (σ : Store) :
    (∀ τ, run A frame.env.options out σ = some τ →
      ∃ σ', stmt.form.exec A frame.env.options σ = some σ' ∧
        σ'.Agree (frame.env.options.Below s.discards) τ) ∧
    (A.Total → ∃ τ, run A frame.env.options out σ = some τ) := by
  have hsimple : ∀ x ∈ [stmt], Simple frame.env C (frame.env.options.Below s.discards) x.form :=
    forall_mem_singleton.2 (.update hstmt)
  obtain ⟨-, hout, hrefines⟩ := (lowerSeq_simple hres fuel declared [stmt] s hsimple).of_ok hlow
  constructor
  · intro τ hτ
    obtain ⟨σ', hσ', hagree⟩ := hrefines A σ τ hτ
    exact ⟨σ', by simpa [run] using hσ', hagree⟩
  · exact fun hA => Option.isSome_iff_exists.1 (run_isSome hout hA σ)

end Walk

end Lowering

/-! ## A nested read -/

open Lowering

/-- Unbounded integers. A division by zero and a shift by a negative amount give `fault`. -/
def Arithmetic.integers (fault : Option Int) : Arithmetic where
  literal text := text.toInt?.getD 0
  unary
    | .neg, a => -a
    | .not, a => (a == 0).toInt
    | .complement, a => a.not
    | _, a => a
  binary
    | .logicalOr, a, b => some (a != 0 || b != 0).toInt
    | .logicalAnd, a, b => some (a != 0 && b != 0).toInt
    | .eq, a, b => some (a == b).toInt
    | .ne, a, b => some (a != b).toInt
    | .lt, a, b => some (decide (a < b)).toInt
    | .le, a, b => some (decide (a ≤ b)).toInt
    | .gt, a, b => some (decide (b < a)).toInt
    | .ge, a, b => some (decide (b ≤ a)).toInt
    | .add, a, b => some (a + b)
    | .sub, a, b => some (a - b)
    | .mul, a, b => some (a * b)
    | .div, a, b => if b = 0 then fault else some (a.tdiv b)
    | .rem, a, b => if b = 0 then fault else some (a.tmod b)
    | .shiftLeft, a, b => if b < 0 then fault else some (a * 2 ^ b.toNat)
    | .shiftRight, a, b => if b < 0 then fault else some (a >>> b.toNat)
    | .bitOr, a, b => some (Int.lor a b)
    | .bitXor, a, b => some (Int.xor a b)
    | .bitAnd, a, b => some (Int.land a b)
    | .andNot, a, b => some (Int.land a b.not)
  literal_one := by
    have hsign : "1".dropPrefix? '-' = none := rfl
    simp [String.toInt?, String.Slice.toInt?, String.Slice.toNat?, String.Slice.isNat, hsign]
  binary_andNot _ _ := rfl

theorem Arithmetic.integers_total (n : Int) : (Arithmetic.integers (some n)).Total := by
  intro op a b
  cases op
  case div | rem | shiftLeft | shiftRight =>
    simp only [integers]
    split <;> rfl
  all_goals rfl

/-- A resolver that knows two containers of integers, `counts` and `keys`. -/
def twoContainers : Resolver where
  typeOf
    | .ident _ name, _ =>
      if name = "counts" ∨ name = "keys" then
        some (.ofType (.map (.named "int") (.named "int")))
      else none
    | .index .., _ => some (.ofType (.named "int"))
    | _, _ => none
  resultType _ _ _ := none

theorem twoContainers_reports :
    twoContainers.Reports fun name => name = "counts" ∨ name = "keys" := by
  intro span name place
  simp only [twoContainers]
  split <;> simp_all [ResolvedType.ofType, TypeExpr.isMap]

/-- `total += counts[keys[i]]` -/
def addingNested : Stmt :=
  ⟨0, ⟨0, 0, 24⟩, .assign [.ident ⟨0, 0, 5⟩ "total"] .add
    [.index ⟨0, 9, 24⟩ (.ident ⟨0, 9, 15⟩ "counts")
      (.index ⟨0, 16, 23⟩ (.ident ⟨0, 16, 20⟩ "keys") (.ident ⟨0, 21, 22⟩ "i"))]⟩

/-- The store with `total = 1`, `i = 2`, `keys[2] = 5` and `counts[5] = 7`. -/
def nestedStore : Store where
  vars name := if name = "total" then 1 else if name = "i" then 2 else 0
  containers name key :=
    if name = "keys" ∧ key = 2 then some 5 else if name = "counts" ∧ key = 5 then some 7 else none

theorem below_of_head (h : name.toList.head? ≠ some '_') (k : Nat) : Options.Below {} k name := by
  rintro n - rfl
  have hname : Options.discardName {} n = "_unused" ++ n.repr := rfl
  exact h (by simp [hname])

/-- The two reads are made inner first, and the sum arrives. -/
theorem lowerSeq_preserves_nested_update :
    ∃ out s' τ, lowerSeq 40 ⟨⟨twoContainers, {}, []⟩, none⟩ [] [addingNested] ⟨1, 0, [], []⟩ =
        .ok (out, s') ∧
      run (.integers (some 0)) {} out nestedStore = some τ ∧
      τ.vars "total" = 8 ∧ τ.vars "i" = 2 := by
  have hbelow (name : String) (h : name.toList.head? ≠ some '_') : Options.Below {} 0 name :=
    below_of_head h 0
  have hupdate : Update (fun name => name = "counts" ∨ name = "keys") (Options.Below {} 0)
      addingNested.form :=
    .combine (.var (hbelow _ (by decide)) (by decide)) rfl
      (.element (.inl rfl) (hbelow _ (by decide))
        (.element (.inr rfl) (hbelow _ (by decide)) (.ident (hbelow _ (by decide)))))
  obtain ⟨⟨out, s'⟩, hlow⟩ : ∃ p, lowerSeq 40 ⟨⟨twoContainers, {}, []⟩, none⟩ [] [addingNested]
      ⟨1, 0, [], []⟩ = .ok p := ⟨_, rfl⟩
  obtain ⟨hrun, htotal⟩ := lowerSeq_preserves_update twoContainers_reports 40 [] hupdate hlow
    (.integers (some 0)) nestedStore
  obtain ⟨τ, hτ⟩ := htotal (Arithmetic.integers_total 0)
  obtain ⟨σ', hσ', hagree⟩ := hrun τ hτ
  have hsource : addingNested.form.exec (.integers (some 0)) {} nestedStore =
      some (nestedStore.set "total" 8) := rfl
  obtain rfl : nestedStore.set "total" 8 = σ' := Option.some.inj (hsource.symm.trans hσ')
  refine ⟨out, s', τ, hlow, hτ, ?_, ?_⟩
  · exact (hagree.vars "total" (hbelow _ (by decide))).symm
  · exact (hagree.vars "i" (hbelow _ (by decide))).symm

end ScriptLowering
