import Mathlib.Logic.Function.Basic
import ScriptLowering.Lowering.Rules

/-!
# What simple statements do

A store holds integer variables and containers. Expressions without calls have a value in it,
and assignments, declarations and calls of the container library change it. What the operators
do is left to an `Arithmetic`, which may refuse an operation, as a division by zero; then the
statement has no outcome.

The last section says which names an expression or a statement depends on: stores that agree on
those give the same outcome.
-/

namespace ScriptLowering

/-- The variables and the containers of a program. A container has no value at a missing key. -/
structure Store where
  vars : String → Int
  containers : String → Int → Option Int

/-- What an assignment can write: a variable, or the element of a container at a key. -/
inductive Slot where
  | var (name : String)
  | element (container : String) (key : Int)

namespace Store

/-- The element at a key, 0 when it is missing. -/
def element (σ : Store) (container : String) (key : Int) : Int :=
  (σ.containers container key).getD 0

/-- Whether the key is present, as a number. -/
def presence (σ : Store) (container : String) (key : Int) : Int :=
  if (σ.containers container key).isSome then 1 else 0

def set (σ : Store) (name : String) (value : Int) : Store :=
  { σ with vars := Function.update σ.vars name value }

def put (σ : Store) (container : String) (key value : Int) : Store :=
  let updated := Function.update (σ.containers container) key (some value)
  { σ with containers := Function.update σ.containers container updated }

/-- Read an element into `target`, and whether it was there into `flag`. -/
def lookUp (σ : Store) (target flag container : String) (key : Int) : Store :=
  (σ.set target (σ.element container key)).set flag (σ.presence container key)

def read (σ : Store) : Slot → Int
  | .var name => σ.vars name
  | .element container key => σ.element container key

def write (σ : Store) : Slot → Int → Store
  | .var name, value => σ.set name value
  | .element container key, value => σ.put container key value

end Store

/-- Integers and their operators. An operator may refuse its operands. -/
structure Arithmetic where
  literal : String → Int
  unary : UnaryOp → Int → Int
  binary : BinaryOp → Int → Int → Option Int
  literal_one : literal "1" = 1
  binary_andNot : ∀ a b, binary .andNot a b = binary .bitAnd a (unary .complement b)

namespace Arithmetic

/-- No operator refuses its operands. -/
def Total (A : Arithmetic) : Prop := ∀ op a b, (A.binary op a b).isSome

/-- A truth value as a number. -/
def truth (value : Int) : Int := if value = 0 then 0 else 1

/-- The value of an operation. The right operand of a logical operator counts only when the left
one does not decide. -/
def apply (A : Arithmetic) (op : BinaryOp) (left right : Option Int) : Option Int :=
  match op with
  | .logicalAnd => left.bind fun a => if a = 0 then some 0 else right.map truth
  | .logicalOr => left.bind fun a => if a = 0 then right.map truth else some 1
  | op => left.bind fun a => right.bind fun b => A.binary op a b

theorem apply_of_strict (A : Arithmetic) {op} (h : op.isShortCircuit = false)
    (left right : Option Int) :
    A.apply op left right = left.bind fun a => right.bind fun b => A.binary op a b := by
  cases op <;> first | rfl | cases h

theorem apply_andNot (A : Arithmetic) (left right : Option Int) :
    A.apply .andNot left right = A.apply .bitAnd left (right.map (A.unary .complement)) := by
  cases left <;> cases right <;> simp [apply, A.binary_andNot]

theorem Total.apply_isSome {A : Arithmetic} (hA : A.Total) (op : BinaryOp) {left right}
    (hl : left.isSome) (hr : right.isSome) : (A.apply op left right).isSome := by
  obtain ⟨a, rfl⟩ := Option.isSome_iff_exists.1 hl
  obtain ⟨b, rfl⟩ := Option.isSome_iff_exists.1 hr
  cases op
  case logicalAnd | logicalOr =>
    simp only [apply, Option.bind_some, Option.map_some]
    split <;> rfl
  all_goals exact hA _ a b

end Arithmetic

/-- Operators on numbers; the others are about addresses and channels. -/
def UnaryOp.isArithmetic : UnaryOp → Bool
  | plus | neg | not | complement => true
  | deref | addressOf | receive => false

/-! ## Expressions and statements -/

/-- The value of an expression without calls. -/
def Expr.eval (A : Arithmetic) (σ : Store) : Expr → Option Int
  | .ident _ name => some (σ.vars name)
  | .lit _ (.int text) => some (A.literal text)
  | .paren _ inner => inner.eval A σ
  | .unary _ op operand =>
    if op.isArithmetic then (operand.eval A σ).map (A.unary op) else none
  | .binary _ op left right => A.apply op (left.eval A σ) (right.eval A σ)
  | .index _ (.ident _ container) key => (key.eval A σ).map (σ.element container)
  | _ => none

/-- The slot an assignment target stands for. -/
def Expr.slot (A : Arithmetic) (σ : Store) : Expr → Option Slot
  | .ident _ name => some (.var name)
  | .index _ (.ident _ container) key => (key.eval A σ).map (.element container)
  | _ => none

/-- The library call that reads an element into a variable and tells whether it was there. -/
def Expr.getElement (A : Arithmetic) (options : Lowering.Options) (σ : Store) :
    Expr → Option (Int × Store)
  | .call _ (.ident _ name) [.ident _ container, key, .unary _ .addressOf (.ident _ target)] _ =>
    if name = options.containerGet then
      (key.eval A σ).map fun k => (σ.presence container k, σ.set target (σ.element container k))
    else none
  | _ => none

/-- The library call that writes an element. -/
def Expr.setElement (A : Arithmetic) (options : Lowering.Options) (σ : Store) :
    Expr → Option Store
  | .call _ (.ident _ name) [.ident _ container, key, value] _ =>
    if name = options.containerSet then do
      let k ← key.eval A σ
      return σ.put container k (← value.eval A σ)
    else none
  | _ => none

/-- The value of the right side of an assignment, and the store after it. -/
def Expr.rhs (A : Arithmetic) (options : Lowering.Options) (σ : Store) (e : Expr) :
    Option (Int × Store) :=
  e.getElement A options σ <|> (e.eval A σ).map (·, σ)

/-- The store after variables were declared without values. -/
def Store.declare (σ : Store) : List Spec → Option Store
  | [] => some σ
  | .value names (some _) [] :: specs =>
    (names.foldl (fun σ name => σ.set name.val 0) σ).declare specs
  | _ :: _ => none

/-- Apply a binary operator to a slot. -/
def Store.combine (A : Arithmetic) (σ : Store) (slot : Slot) (op : BinaryOp) (value : Int) :
    Option Store :=
  (A.binary op (σ.read slot) value).map (σ.write slot)

/-- The store after a simple statement. -/
def StmtForm.exec (A : Arithmetic) (options : Lowering.Options) (σ : Store) :
    StmtForm → Option Store
  | .decl ⟨.var, specs, _⟩ => σ.declare specs
  | .expr e => (e.getElement A options σ).map (·.2) <|> e.setElement A options σ
  | .assign [target] .assign [value] => do
    let slot ← target.slot A σ
    let (v, σ) ← value.rhs A options σ
    return σ.write slot v
  | .assign [target] op [value] => do
    σ.combine A (← target.slot A σ) (← op.combines?) (← value.eval A σ)
  | .incDec target increments => do
    σ.combine A (← target.slot A σ) (if increments then .add else .sub) 1
  | .assign [.ident _ target, .ident _ flag] .assign [.index _ (.ident _ container) key] =>
    (key.eval A σ).map (σ.lookUp target flag container)
  | _ => none

/-- The store after statements one after the other. -/
def run (A : Arithmetic) (options : Lowering.Options) : List Stmt → Store → Option Store
  | [], σ => some σ
  | stmt :: stmts, σ => (stmt.form.exec A options σ).bind (run A options stmts)

theorem run_append (A : Arithmetic) (options : Lowering.Options) (stmts more : List Stmt)
    (σ : Store) :
    run A options (stmts ++ more) σ = (run A options stmts σ).bind (run A options more) := by
  induction stmts generalizing σ with
  | nil => rfl
  | cons stmt stmts ih =>
    simp only [List.cons_append, run, Option.bind_assoc]
    congr 1
    funext τ
    exact ih τ

/-! ## Stores that agree -/

namespace Store

/-- The stores have the same containers, and the same values of the variables in `V`. -/
structure Agree (V : String → Prop) (σ τ : Store) : Prop where
  containers : σ.containers = τ.containers
  vars : ∀ name, V name → σ.vars name = τ.vars name

variable {V W : String → Prop} {σ τ υ : Store}

theorem Agree.refl (V : String → Prop) (σ : Store) : σ.Agree V σ := ⟨rfl, fun _ _ => rfl⟩

theorem Agree.symm (h : σ.Agree V τ) : τ.Agree V σ :=
  ⟨h.containers.symm, fun name hn => (h.vars name hn).symm⟩

theorem Agree.trans (h : σ.Agree V τ) (h' : τ.Agree V υ) : σ.Agree V υ :=
  ⟨h.containers.trans h'.containers, fun name hn => (h.vars name hn).trans (h'.vars name hn)⟩

theorem Agree.mono (h : σ.Agree W τ) (hV : ∀ name, V name → W name) : σ.Agree V τ :=
  ⟨h.containers, fun name hn => h.vars name (hV name hn)⟩

theorem Agree.element (h : σ.Agree V τ) (container : String) :
    σ.element container = τ.element container := by
  funext key
  simp only [Store.element, h.containers]

theorem Agree.presence (h : σ.Agree V τ) (container : String) (key : Int) :
    σ.presence container key = τ.presence container key := by
  simp only [Store.presence, h.containers]

theorem Agree.set (h : σ.Agree V τ) (name : String) (value : Int) :
    (σ.set name value).Agree V (τ.set name value) := by
  refine ⟨h.containers, fun other ho => ?_⟩
  by_cases heq : other = name
  · simp [Store.set, heq]
  · simp [Store.set, heq, h.vars other ho]

/-- A variable that does not count may be set on one side only. -/
theorem Agree.set_left (h : σ.Agree V τ) {name} (hname : ¬ V name) (value : Int) :
    (σ.set name value).Agree V τ := by
  refine ⟨h.containers, fun other ho => ?_⟩
  have hne : other ≠ name := fun heq => hname (heq ▸ ho)
  simp [Store.set, hne, h.vars other ho]

theorem Agree.put (h : σ.Agree V τ) (container : String) (key value : Int) :
    (σ.put container key value).Agree V (τ.put container key value) :=
  ⟨by simp [Store.put, h.containers], h.vars⟩

theorem Agree.lookUp (h : σ.Agree V τ) (target flag container : String) (key : Int) :
    (σ.lookUp target flag container key).Agree V (τ.lookUp target flag container key) := by
  rw [Store.lookUp, Store.lookUp, h.element, h.presence]
  exact (h.set _ _).set _ _

theorem Agree.write (h : σ.Agree V τ) (slot : Slot) (value : Int) :
    (σ.write slot value).Agree V (τ.write slot value) := by
  cases slot with
  | var name => exact h.set name value
  | element container key => exact h.put container key value

@[simp] theorem set_set (σ : Store) (name : String) (first second : Int) :
    (σ.set name first).set name second = σ.set name second := by
  simp [Store.set]

@[simp] theorem element_set (σ : Store) (name : String) (value : Int) (container : String) :
    (σ.set name value).element container = σ.element container := rfl

end Store

/-! ## Expressions over given names -/

section Fragment

variable (C V : String → Prop)

/-- An expression without calls over variables in `V` and elements of the containers in `C`. -/
inductive Plain : Expr → Prop
  | ident {span name} : V name → Plain (.ident span name)
  | int {span text} : Plain (.lit span (.int text))
  | paren {span inner} : Plain inner → Plain (.paren span inner)
  | unary {span op operand} : op.isArithmetic = true → Plain operand →
    Plain (.unary span op operand)
  | binary {span op left right} : Plain left → Plain right → Plain (.binary span op left right)
  | element {span place container key} : C container → V container → Plain key →
    Plain (.index span (.ident place container) key)

/-- What a statement can assign to: a variable, or an element of a container. -/
inductive Target : Expr → Prop
  | var {span name} : V name → name ≠ "_" → Target (.ident span name)
  | element {span place container key} : C container → V container → Plain C V key →
    Target (.index span (.ident place container) key)

end Fragment

section Fragment

variable {C V W : String → Prop} {A : Arithmetic} {σ τ : Store} {e : Expr}

theorem Plain.mono (h : Plain C V e) (hV : ∀ name, V name → W name) : Plain C W e := by
  induction h with
  | ident hn => exact .ident (hV _ hn)
  | int => exact .int
  | paren _ ih => exact .paren ih
  | unary hop _ ih => exact .unary hop ih
  | binary _ _ ihl ihr => exact .binary ihl ihr
  | element hc hn _ ih => exact .element hc (hV _ hn) ih

theorem Target.mono (h : Target C V e) (hV : ∀ name, V name → W name) : Target C W e := by
  cases h with
  | var hn hb => exact .var (hV _ hn) hb
  | element hc hn hk => exact .element hc (hV _ hn) (hk.mono hV)

theorem Plain.eval_congr (h : Plain C V e) (hστ : σ.Agree V τ) : e.eval A σ = e.eval A τ := by
  induction h with
  | ident hn => simp only [Expr.eval, hστ.vars _ hn]
  | int => rfl
  | paren _ ih => exact ih
  | unary _ _ ih => simp only [Expr.eval, ih]
  | binary _ _ ihl ihr => simp only [Expr.eval, ihl, ihr]
  | element _ _ _ ih => simp only [Expr.eval, ih, hστ.element]

theorem Plain.eval_set (h : Plain C V e) {name} (hname : ¬ V name) (value : Int) :
    e.eval A (σ.set name value) = e.eval A σ :=
  h.eval_congr ((Store.Agree.refl V σ).set_left hname value)

theorem Plain.eval_isSome (h : Plain C V e) (hA : A.Total) (σ : Store) : (e.eval A σ).isSome := by
  induction h with
  | ident _ => rfl
  | int => rfl
  | paren _ ih => exact ih
  | unary hop _ ih => simpa [Expr.eval, hop] using ih
  | binary _ _ ihl ihr => exact hA.apply_isSome _ ihl ihr
  | element _ _ _ ih => simpa [Expr.eval] using ih

theorem Target.slot_congr (h : Target C V e) (hστ : σ.Agree V τ) : e.slot A σ = e.slot A τ := by
  cases h with
  | var _ _ => rfl
  | element _ _ hk => simp only [Expr.slot, hk.eval_congr hστ]

theorem Target.slot_isSome (h : Target C V e) (hA : A.Total) (σ : Store) : (e.slot A σ).isSome := by
  cases h with
  | var _ _ => rfl
  | element _ _ hk => simpa [Expr.slot] using hk.eval_isSome hA σ

theorem Target.read_congr (h : Target C V e) (hστ : σ.Agree V τ) {slot}
    (hslot : e.slot A σ = some slot) : σ.read slot = τ.read slot := by
  cases h with
  | var hn _ =>
    cases hslot
    exact hστ.vars _ hn
  | element _ _ _ =>
    obtain ⟨k, -, rfl⟩ := Option.map_eq_some_iff.1 hslot
    simp only [Store.read, hστ.element]

/-- An operator applied to a slot, in stores that agree. -/
theorem Store.Agree.combine (hστ : σ.Agree V τ) {slot} (hslot : σ.read slot = τ.read slot)
    (op : BinaryOp) (value : Int) {σ'} (h : σ.combine A slot op value = some σ') :
    ∃ τ', τ.combine A slot op value = some τ' ∧ σ'.Agree V τ' := by
  obtain ⟨r, hr, rfl⟩ := Option.map_eq_some_iff.1 h
  exact ⟨τ.write slot r, by simp [Store.combine, ← hslot, hr], hστ.write slot r⟩

end Fragment

/-! ## Simple statements -/

section Simple

variable (env : Lowering.Env) (C V : String → Prop)

/-- A statement that updates one variable or element, or looks an element up. -/
inductive Update : StmtForm → Prop
  | assign {target value} : Target C V target → Plain C V value →
    Update (.assign [target] .assign [value])
  | combine {target op value} : Target C V target → op.combines?.isSome = true →
    Plain C V value → Update (.assign [target] op [value])
  | step {target increments} : Target C V target → Update (.incDec target increments)
  | lookup {span target flagSpan flag elementSpan place container key} :
    V target → target ≠ "_" → V flag → flag ≠ "_" → C container → V container →
    Plain C V key →
    Update (.assign [.ident span target, .ident flagSpan flag] .assign
      [.index elementSpan (.ident place container) key])

/-- An update, or a statement that the lowering of one is made of. -/
inductive Simple : StmtForm → Prop
  | update {form} : Update C V form → Simple form
  | declare {name type span} : V name → Simple (.decl (Lowering.varDecl [(name, type)] span))
  | get {place container key targetSpan target span} : C container → V container →
    Plain C V key → V target →
    Simple (.expr (env.readCall (.ident place container) key (.ident targetSpan target) span))
  | set {place container key value span} : C container → V container → Plain C V key →
    Plain C V value → Simple (.expr (env.writeCall (.ident place container) key value span))
  | getFlag {flagSpan flag place container key targetSpan target span} : V flag → C container →
    V container → Plain C V key → V target →
    Simple (.assign [.ident flagSpan flag] .assign
      [env.readCall (.ident place container) key (.ident targetSpan target) span])

end Simple

section Simple

variable {env : Lowering.Env} {C V W : String → Prop} {A : Arithmetic} {σ τ : Store}
  {form : StmtForm}

theorem Update.mono (h : Update C V form) (hV : ∀ name, V name → W name) : Update C W form := by
  cases h with
  | assign ht he => exact .assign (ht.mono hV) (he.mono hV)
  | combine ht hop he => exact .combine (ht.mono hV) hop (he.mono hV)
  | step ht => exact .step (ht.mono hV)
  | lookup ht htb hf hfb hc hn hk =>
    exact .lookup (hV _ ht) htb (hV _ hf) hfb hc (hV _ hn) (hk.mono hV)

theorem Simple.mono (h : Simple env C V form) (hV : ∀ name, V name → W name) :
    Simple env C W form := by
  cases h with
  | update h => exact .update (h.mono hV)
  | declare hn => exact .declare (hV _ hn)
  | get hc hn hk ht => exact .get hc (hV _ hn) (hk.mono hV) (hV _ ht)
  | set hc hn hk he => exact .set hc (hV _ hn) (hk.mono hV) (he.mono hV)
  | getFlag hf hc hn hk ht => exact .getFlag (hV _ hf) hc (hV _ hn) (hk.mono hV) (hV _ ht)

/-! What each of them does, in terms of the values of its expressions. -/

theorem exec_assign {target value} (h : Plain C V value) :
    StmtForm.exec A env.options σ (.assign [target] .assign [value]) =
      (target.slot A σ).bind fun slot => (value.eval A σ).map (σ.write slot) := by
  have hrhs : value.rhs A env.options σ = (value.eval A σ).map (·, σ) := by
    cases h <;> simp [Expr.rhs, Expr.getElement]
  simp only [StmtForm.exec, hrhs]
  cases target.slot A σ <;> cases value.eval A σ <;> rfl

theorem exec_combine {target value op b} (h : op.combines? = some b) :
    StmtForm.exec A env.options σ (.assign [target] op [value]) =
      (target.slot A σ).bind fun slot => (value.eval A σ).bind (σ.combine A slot b) := by
  cases op
  case define | assign => cases h
  all_goals
    cases h
    simp only [StmtForm.exec, AssignOp.combines?]
    cases target.slot A σ <;> cases value.eval A σ <;> rfl

theorem exec_step {target increments} : StmtForm.exec A env.options σ (.incDec target increments) =
      (target.slot A σ).bind fun slot =>
        σ.combine A slot (if increments then .add else .sub) 1 := by
  simp only [StmtForm.exec]
  cases target.slot A σ <;> rfl

theorem exec_get {place targetSpan span container target key} : StmtForm.exec A env.options σ
        (.expr (env.readCall (.ident place container) key (.ident targetSpan target) span)) =
      (key.eval A σ).map fun k => σ.set target (σ.element container k) := by
  cases hk : key.eval A σ <;>
    simp [StmtForm.exec, Lowering.Env.readCall, Expr.callOf, Expr.address, Expr.getElement,
      Expr.setElement, hk]

theorem exec_set {place span container key value} (h : Plain C V value) :
    StmtForm.exec A env.options σ (.expr (env.writeCall (.ident place container) key value span)) =
      (key.eval A σ).bind fun k => (value.eval A σ).map (σ.put container k) := by
  have hget : Expr.getElement A env.options σ
      (env.writeCall (.ident place container) key value span) = none := by
    cases h with
    | unary hop _ =>
      rename_i op _ _
      cases op <;> simp_all [Lowering.Env.writeCall, Expr.callOf, Expr.getElement,
        UnaryOp.isArithmetic]
    | _ => rfl
  simp only [StmtForm.exec, hget]
  cases hk : key.eval A σ <;> cases hv : value.eval A σ <;>
    simp [Lowering.Env.writeCall, Expr.callOf, Expr.setElement, hk, hv]

theorem exec_getFlag {flagSpan place targetSpan span flag container target key} :
    StmtForm.exec A env.options σ (.assign [.ident flagSpan flag] .assign
        [env.readCall (.ident place container) key (.ident targetSpan target) span]) =
      (key.eval A σ).map (σ.lookUp target flag container) := by
  cases hk : key.eval A σ <;>
    simp [StmtForm.exec, Lowering.Env.readCall, Expr.callOf, Expr.address, Expr.getElement,
      Expr.slot, Expr.rhs, Expr.eval, Store.write, Store.lookUp, hk]

theorem exec_lookup {span flagSpan elementSpan place target flag container key} :
    StmtForm.exec A env.options σ (.assign [.ident span target, .ident flagSpan flag] .assign
        [.index elementSpan (.ident place container) key]) =
      (key.eval A σ).map (σ.lookUp target flag container) := rfl

theorem exec_declare {name type span} :
    StmtForm.exec A env.options σ (.decl (Lowering.varDecl [(name, type)] span)) =
      some (σ.set name 0) := rfl

/-- In stores that agree on the names of a simple statement, it has the same outcome. -/
theorem Simple.exec_congr (h : Simple env C V form) (hστ : σ.Agree V τ) {σ'}
    (hσ : form.exec A env.options σ = some σ') :
    ∃ τ', form.exec A env.options τ = some τ' ∧ σ'.Agree V τ' := by
  cases h with
  | update h =>
    cases h with
    | assign ht he =>
      rw [exec_assign he] at hσ ⊢
      rw [← ht.slot_congr hστ, ← he.eval_congr hστ]
      obtain ⟨slot, hslot, hσ⟩ := Option.bind_eq_some_iff.1 hσ
      obtain ⟨v, hv, rfl⟩ := Option.map_eq_some_iff.1 hσ
      exact ⟨τ.write slot v, by simp [hslot, hv], hστ.write slot v⟩
    | combine ht hop he =>
      obtain ⟨b, hb⟩ := Option.isSome_iff_exists.1 hop
      rw [exec_combine hb] at hσ ⊢
      rw [← ht.slot_congr hστ, ← he.eval_congr hστ]
      obtain ⟨slot, hslot, hσ⟩ := Option.bind_eq_some_iff.1 hσ
      obtain ⟨v, hv, hσ⟩ := Option.bind_eq_some_iff.1 hσ
      obtain ⟨τ', hτ', hagree⟩ := hστ.combine (ht.read_congr hστ hslot) b v hσ
      exact ⟨τ', by simp [hslot, hv, hτ'], hagree⟩
    | step ht =>
      rw [exec_step] at hσ ⊢
      rw [← ht.slot_congr hστ]
      obtain ⟨slot, hslot, hσ⟩ := Option.bind_eq_some_iff.1 hσ
      obtain ⟨τ', hτ', hagree⟩ := hστ.combine (ht.read_congr hστ hslot) _ 1 hσ
      exact ⟨τ', by simp [hslot, hτ'], hagree⟩
    | lookup _ _ _ _ _ _ hk =>
      rw [exec_lookup] at hσ ⊢
      rw [← hk.eval_congr hστ]
      obtain ⟨k, hk, rfl⟩ := Option.map_eq_some_iff.1 hσ
      exact ⟨_, by simp [hk], hστ.lookUp _ _ _ k⟩
  | declare hn =>
    cases hσ
    exact ⟨_, rfl, hστ.set _ 0⟩
  | get _ _ hk _ =>
    rw [exec_get] at hσ ⊢
    rw [← hk.eval_congr hστ]
    obtain ⟨k, hk, rfl⟩ := Option.map_eq_some_iff.1 hσ
    refine ⟨_, by rw [hk]; rfl, ?_⟩
    rw [← hστ.element]
    exact hστ.set _ _
  | set _ _ hk he =>
    rw [exec_set he] at hσ ⊢
    rw [← hk.eval_congr hστ, ← he.eval_congr hστ]
    obtain ⟨k, hk, hσ⟩ := Option.bind_eq_some_iff.1 hσ
    obtain ⟨v, hv, rfl⟩ := Option.map_eq_some_iff.1 hσ
    exact ⟨_, by simp [hk, hv], hστ.put _ k v⟩
  | getFlag _ _ _ hk _ =>
    rw [exec_getFlag] at hσ ⊢
    rw [← hk.eval_congr hστ]
    obtain ⟨k, hk, rfl⟩ := Option.map_eq_some_iff.1 hσ
    exact ⟨_, by simp [hk], hστ.lookUp _ _ _ k⟩

/-- A simple statement has an outcome when no operator refuses its operands. -/
theorem Simple.exec_isSome (h : Simple env C V form) (hA : A.Total) (σ : Store) :
    (form.exec A env.options σ).isSome := by
  cases h with
  | update h =>
    cases h with
    | assign ht he =>
      rw [exec_assign he]
      obtain ⟨slot, hslot⟩ := Option.isSome_iff_exists.1 (ht.slot_isSome hA σ)
      simpa [hslot] using he.eval_isSome hA σ
    | combine ht hop he =>
      obtain ⟨b, hb⟩ := Option.isSome_iff_exists.1 hop
      obtain ⟨slot, hslot⟩ := Option.isSome_iff_exists.1 (ht.slot_isSome hA σ)
      obtain ⟨v, hv⟩ := Option.isSome_iff_exists.1 (he.eval_isSome hA σ)
      simpa [exec_combine hb, hslot, hv, Store.combine] using hA b _ v
    | step ht =>
      obtain ⟨slot, hslot⟩ := Option.isSome_iff_exists.1 (ht.slot_isSome hA σ)
      simpa [exec_step, hslot, Store.combine] using hA _ _ 1
    | lookup _ _ _ _ _ _ hk => simpa [exec_lookup] using hk.eval_isSome hA σ
  | declare hn => rfl
  | get _ _ hk _ => simpa [exec_get] using hk.eval_isSome hA σ
  | set _ _ hk he =>
    obtain ⟨k, hk⟩ := Option.isSome_iff_exists.1 (hk.eval_isSome hA σ)
    simpa [exec_set he, hk] using he.eval_isSome hA σ
  | getFlag _ _ _ hk _ => simpa [exec_getFlag] using hk.eval_isSome hA σ

/-- The same for statements one after the other. -/
theorem run_congr {stmts} (h : ∀ x ∈ stmts, Simple env C V x.form) (hστ : σ.Agree V τ) {σ'}
    (hσ : run A env.options stmts σ = some σ') :
    ∃ τ', run A env.options stmts τ = some τ' ∧ σ'.Agree V τ' := by
  induction stmts generalizing σ τ with
  | nil =>
    cases hσ
    exact ⟨τ, rfl, hστ⟩
  | cons stmt stmts ih =>
    obtain ⟨σ1, hσ1, hσ⟩ := Option.bind_eq_some_iff.1 hσ
    obtain ⟨τ1, hτ1, hagree⟩ := (h stmt (by simp)).exec_congr hστ hσ1
    obtain ⟨τ', hτ', hagree'⟩ := ih (fun x hx => h x (by simp [hx])) hagree hσ
    exact ⟨τ', by simp [run, hτ1, hτ'], hagree'⟩

theorem run_isSome {stmts} (h : ∀ x ∈ stmts, Simple env C V x.form) (hA : A.Total) (σ : Store) :
    (run A env.options stmts σ).isSome := by
  induction stmts generalizing σ with
  | nil => rfl
  | cons stmt stmts ih =>
    obtain ⟨σ1, hσ1⟩ := Option.isSome_iff_exists.1 ((h stmt (by simp)).exec_isSome hA σ)
    simpa [run, hσ1] using ih (fun x hx => h x (by simp [hx])) σ1

end Simple

end ScriptLowering
