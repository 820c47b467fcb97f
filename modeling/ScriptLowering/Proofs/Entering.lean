import ScriptLowering.Proofs.Extraction
import ScriptLowering.Proofs.Outcome

/-!
# Entering expressions

Apart from function literals, an expression is entered by lowering its parts one after another and
filling it with what they became (`lowerExpr_eq`). So whatever is known of one such step is known of
whole expressions (`Enters`).
-/

namespace ScriptLowering

open List

/-! ## Parts -/

/-- The expressions right inside an expression. -/
def Expr.parts : Expr → List Expr
  | .ident .. | .lit .. | .type .. | .funcLit .. => []
  | .composite _ _ elems => elems
  | .keyValue _ left right | .index _ left right | .binary _ _ left right => [left, right]
  | .paren _ inner | .selector _ inner _ | .typeAssert _ inner _ | .unary _ _ inner => [inner]
  | .slice _ base low high max => base :: (low.toList ++ high.toList ++ max.toList)
  | .call _ callee args _ => callee :: args

def Expr.isLiteral : Expr → Bool
  | .funcLit .. => true
  | _ => false

theorem Expr.sizeOf_parts {e x : Expr} (h : x ∈ e.parts) : sizeOf x < sizeOf e := by
  cases e with
  | composite span type elems =>
    have : sizeOf x < sizeOf elems := sizeOf_lt_of_mem h
    grind
  | call span callee args spread =>
    rcases mem_cons.1 h with rfl | h
    · grind
    · have := sizeOf_lt_of_mem h
      grind
  | slice span base low high max =>
    cases low <;> cases high <;> cases max <;> simp [parts] at h <;> grind
  | _ => simp [parts] at h <;> grind

/-- What holds of an expression when it holds of its parts holds of all expressions. -/
theorem Expr.induct {M : Expr → Prop} (h : ∀ e, (∀ x ∈ e.parts, M x) → M e) (e : Expr) : M e :=
  h e fun x _ => Expr.induct h x
termination_by sizeOf e
decreasing_by exact Expr.sizeOf_parts ‹_›

theorem Expr.surface_eq (e : Expr) : e.surface = e :: surfaceOfExprs e.parts := by
  cases e <;> simp [surface, parts, surfaceOfExprs, surfaceOfExprs_append, surfaceOfExprs_toList]

theorem Expr.isLiteral_of_mem_parts {e x : Expr} (h : x ∈ e.parts) : e.isLiteral = false := by
  cases e with
  | funcLit => cases h
  | _ => rfl

/-- The expression is spelled with and-not. -/
def Expr.isAndNot : Expr → Bool
  | .binary _ op _ _ => op == .andNot
  | _ => false

namespace Lowering

/-- The expression with other parts, and with and-not spelled by its complement. -/
def refill : Expr → List Expr → Expr
  | .composite span type _, elems => .composite span type elems
  | .keyValue span _ _, [key, value] => .keyValue span key value
  | .index span _ _, [base, key] => .index span base key
  | .binary span op _ _, [left, right] => lowerBinary span op left right
  | .paren span _, [inner] => .paren span inner
  | .selector span _ member, [base] => .selector span base member
  | .typeAssert span _ type, [base] => .typeAssert span base type
  | .unary span op _, [operand] => .unary span op operand
  | .call span _ _ spread, callee :: args => .call span callee args spread
  | .slice span _ low high _, base :: bounds =>
    let low' := bounds.take low.toList.length
    let bounds := bounds.drop low.toList.length
    .slice span base low'.head? (bounds.take high.toList.length).head?
      (bounds.drop high.toList.length).head?
  | e, _ => e

section Equations

variable (env : Env) (lowerSeq : SequenceLowering)

/-- How an expression is entered. -/
theorem lowerExpr_eq (e : Expr) (h : e.isLiteral = false) :
    lowerExpr env lowerSeq e = do
      if env.resolver.isContainerRead e.span e then fail (.unsupported .mapSubscript e.span)
      let parts ← lowerExprs env lowerSeq e.parts
      return refill e parts := by
  cases e with
  | funcLit => cases h
  | index span base key =>
    simp [lowerExpr, lowerExprs, Expr.parts, refill, Expr.span]
  | slice span base low high max =>
    cases low <;> cases high <;> cases max <;>
      simp [lowerExpr, lowerExpr?, lowerExprs, Expr.parts, refill, Resolver.isContainerRead]
  | _ => simp [lowerExpr, lowerExprs, Expr.parts, refill, Resolver.isContainerRead]

end Equations

theorem bodies_lowerBinary (span : Span) (op : BinaryOp) (left right : Expr) :
    (lowerBinary span op left right).bodies = left.bodies ++ right.bodies := by
  unfold lowerBinary
  split <;> rfl

/-- The expression that an expression becomes when its parts become others. -/
inductive Refills : Expr → List Expr → Expr → Prop
  | ident {span name} : Refills (.ident span name) [] (.ident span name)
  | lit {span value} : Refills (.lit span value) [] (.lit span value)
  | type {span type} : Refills (.type span type) [] (.type span type)
  | composite {span type elems elems'} :
    Refills (.composite span type elems) elems' (.composite span type elems')
  | keyValue {span key value key' value'} :
    Refills (.keyValue span key value) [key', value'] (.keyValue span key' value')
  | paren {span inner inner'} : Refills (.paren span inner) [inner'] (.paren span inner')
  | selector {span base member base'} :
    Refills (.selector span base member) [base'] (.selector span base' member)
  | typeAssert {span base type base'} :
    Refills (.typeAssert span base type) [base'] (.typeAssert span base' type)
  | unary {span op operand operand'} :
    Refills (.unary span op operand) [operand'] (.unary span op operand')
  | index {span base key base' key'} :
    Refills (.index span base key) [base', key'] (.index span base' key')
  | slice {span base base' bounds} {low high max low' high' max' : Option Expr} :
    low'.isSome = low.isSome → high'.isSome = high.isSome →
    bounds = low'.toList ++ high'.toList ++ max'.toList →
    Refills (.slice span base low high max) (base' :: bounds) (.slice span base' low' high' max')
  | call {span callee args spread callee' args'} :
    Refills (.call span callee args spread) (callee' :: args') (.call span callee' args' spread)
  | binary {span op left right left' right'} :
    Refills (.binary span op left right) [left', right'] (lowerBinary span op left' right')

section Refill

variable {e e' : Expr} {es : List Expr}

theorem refills_refill (hlit : e.isLiteral = false) (h : es.length = e.parts.length) :
    Refills e es (refill e es) := by
  cases e with
  | funcLit => cases hlit
  | composite => exact .composite
  | slice span base low high max =>
    obtain ⟨base', bounds, rfl⟩ := exists_cons_of_length_eq_add_one h
    cases low <;> cases high <;> cases max <;>
      rcases bounds with _ | ⟨a, _ | ⟨b, _ | ⟨c, _ | ⟨d, bounds⟩⟩⟩⟩ <;>
      simp [Expr.parts] at h <;> exact .slice rfl rfl rfl
  | call =>
    obtain ⟨callee', args', rfl⟩ := exists_cons_of_length_eq_add_one h
    exact .call
  | _ =>
    rcases es with _ | ⟨a, _ | ⟨b, _ | ⟨c, es⟩⟩⟩ <;> simp [Expr.parts] at h
    constructor

theorem bodies_parts (hlit : e.isLiteral = false) : e.bodies = bodiesOfExprs e.parts := by
  cases e <;> simp_all [Expr.isLiteral, Expr.bodies, Expr.parts, bodiesOfExprs,
    bodiesOfExprs_append, bodiesOfExprs_toList]

theorem Refills.bodies (h : Refills e es e') : e'.bodies = bodiesOfExprs es := by
  cases h <;> simp [Expr.bodies, bodiesOfExprs, bodiesOfExprs_append, bodiesOfExprs_toList,
    bodies_lowerBinary, *]

theorem Refills.isLiteral_eq (h : Refills e es e') : e'.isLiteral = e.isLiteral := by
  cases h with
  | binary =>
    unfold lowerBinary
    split <;> rfl
  | _ => rfl

/-- Only and-not is spelled by other means. -/
theorem Refills.parts_eq (h : Refills e es e') :
    e'.parts = es ∧ e'.isAndNot = false ∨
      ∃ span left right left' right', e = .binary span .andNot left right ∧ es = [left', right'] ∧
        e' = .binary span .bitAnd left' (complement right'.span right') := by
  cases h with
  | @binary span _ left right left' right' =>
    unfold lowerBinary
    split
    · rename_i hop
      exact .inr ⟨span, left, right, left', right', by rw [hop], rfl, rfl⟩
    · rename_i hop
      exact .inl ⟨rfl, by simpa [Expr.isAndNot] using hop⟩
  | slice _ _ hbounds => exact .inl ⟨by rw [hbounds]; rfl, rfl⟩
  | _ => exact .inl ⟨rfl, rfl⟩

theorem Refills.eq_self (h : Refills e e.parts e') (he : e.isAndNot = false) : e' = e := by
  cases e <;> cases h <;> simp_all [Expr.isAndNot, Expr.parts, lowerBinary]
  rename_i low high max low' high' max' hlow hhigh hbounds
  cases low <;> cases low' <;> cases high <;> cases high' <;> simp_all <;>
    cases max <;> cases max' <;> simp_all

end Refill

/-! ## One step after another -/

/-- Each expression is entered where the one before it was left. -/
inductive Chain (R : Expr → Expr → State → State → Prop) :
    List Expr → List Expr → State → State → Prop
  | nil {s} : Chain R [] [] s s
  | cons {e e' es es' s s₁ s'} : R e e' s s₁ → Chain R es es' s₁ s' →
    Chain R (e :: es) (e' :: es') s s'

/-- The values of specifications are entered one after another. -/
inductive SpecsChain (R : Expr → Expr → State → State → Prop) :
    List Spec → List Spec → State → State → Prop
  | nil {s} : SpecsChain R [] [] s s
  | value {names type values values' specs specs' s s₁ s'} : Chain R values values' s s₁ →
    SpecsChain R specs specs' s₁ s' →
    SpecsChain R (.value names type values :: specs) (.value names type values' :: specs') s s'
  | typeName {name isAlias type specs specs' s s'} : SpecsChain R specs specs' s s' →
    SpecsChain R (.typeName name isAlias type :: specs) (.typeName name isAlias type :: specs') s s'

section Chains

variable {R : Expr → Expr → State → State → Prop} {e : Expr} {es es' fs fs' xs : List Expr}
  {s s₁ s' : State}

@[simp] theorem chain_nil_iff : Chain R [] xs s s' ↔ xs = [] ∧ s' = s := by
  constructor
  · rintro ⟨⟩
    exact ⟨rfl, rfl⟩
  · rintro ⟨rfl, rfl⟩
    exact .nil

@[simp] theorem chain_cons_iff :
    Chain R (e :: es) xs s s' ↔
      ∃ e' es', xs = e' :: es' ∧ ∃ s₁, R e e' s s₁ ∧ Chain R es es' s₁ s' := by
  constructor
  · rintro ⟨⟩
    exact ⟨_, _, rfl, _, ‹_›, ‹_›⟩
  · rintro ⟨_, _, rfl, _, he, hes⟩
    exact .cons he hes

theorem Chain.length_eq (h : Chain R es es' s s') : es'.length = es.length := by
  induction h with
  | nil => rfl
  | cons _ _ ih => simp [ih]

theorem Chain.append (h : Chain R es es' s s₁) (h' : Chain R fs fs' s₁ s') :
    Chain R (es ++ fs) (es' ++ fs') s s' := by
  induction h with
  | nil => exact h'
  | cons he _ ih => exact .cons he (ih h')

theorem SpecsChain.values {specs specs'} (h : SpecsChain R specs specs' s s') :
    Chain R (specs.flatMap Spec.values) (specs'.flatMap Spec.values) s s' := by
  induction h with
  | nil => exact .nil
  | value hvalues _ ih => exact hvalues.append ih
  | typeName _ ih => exact ih

end Chains

/-! ## Whole expressions -/

/-- A relation between an expression with `pre` and what it becomes, with the states around, that
holds if it holds of the parts. The states have `inv`, and what may stop the run has `halt`. -/
structure Enters (env : Env) (lowerSeq : SequenceLowering) (pre : Expr → Prop) (inv : State → Prop)
    (R : Expr → Expr → State → State → Prop) (halt : Halt → Prop) : Prop where
  parts : ∀ {e}, pre e → ∀ x ∈ e.parts, pre x
  keeps : ∀ {e e' s s'}, R e e' s s' → inv s → inv s'
  body : ∀ {span params results stmts place s},
    pre (.funcLit span params results ⟨stmts, place⟩) → inv s →
    Ensures (lowerSeq (Field.boundNames params ++ Field.boundNames results) stmts)
      (fun out => R (.funcLit span params results ⟨stmts, place⟩)
        (.funcLit span params results ⟨out, place⟩) s) halt s
  node : ∀ {e e' es s s'}, pre e → e.isLiteral = false →
    env.resolver.isContainerRead e.span e = false → Chain R e.parts es s s' → Refills e es e' →
    R e e' s s'
  stop : ∀ {e}, pre e → env.resolver.isContainerRead e.span e = true →
    halt (.fatal (.unsupported .mapSubscript e.span))

namespace Enters

variable {env : Env} {lowerSeq : SequenceLowering} {pre : Expr → Prop} {inv : State → Prop}
  {R : Expr → Expr → State → State → Prop} {halt : Halt → Prop} {s : State}
  (enters : Enters env lowerSeq pre inv R halt)
include enters

theorem list {es} (hs : inv s)
    (h : ∀ e ∈ es, ∀ s, inv s → Ensures (lowerExpr env lowerSeq e) (fun e' => R e e' s) halt s) :
    Ensures (lowerExprs env lowerSeq es) (fun es' => Chain R es es' s) halt s := by
  induction es generalizing s with
  | nil => exact .nil
  | cons e es ih =>
    obtain ⟨he, hes⟩ := forall_mem_cons.1 h
    refine (he s hs).bind fun e' s₁ hR => ?_
    exact (ih (enters.keeps hR hs) hes).bind fun es' s' hchain => .cons hR hchain

theorem expr (e : Expr) (he : pre e) (hs : inv s) :
    Ensures (lowerExpr env lowerSeq e) (fun e' => R e e' s) halt s := by
  induction e using Expr.induct generalizing s with | _ e ih
  cases hlit : e.isLiteral with
  | true =>
    cases e with
    | funcLit span params results body =>
      obtain ⟨stmts, place⟩ := body
      exact (enters.body he hs).bind fun _ _ h => h
    | _ => cases hlit
  | false =>
    rw [lowerExpr_eq env lowerSeq e hlit]
    cases hread : env.resolver.isContainerRead e.span e with
    | true => exact enters.stop he hread
    | false =>
      have hparts := enters.list hs fun x hx s => ih x hx (enters.parts he x hx)
      refine hparts.bind fun es s' hchain => ?_
      exact enters.node he hlit hread hchain (refills_refill hlit hchain.length_eq)

theorem keeps_chain {es es' s'} (h : Chain R es es' s s') (hs : inv s) : inv s' := by
  induction h with
  | nil => exact hs
  | cons he _ ih => exact ih (enters.keeps he hs)

theorem exprs {es} (hes : ∀ e ∈ es, pre e) (hs : inv s) :
    Ensures (lowerExprs env lowerSeq es) (fun es' => Chain R es es' s) halt s :=
  enters.list hs fun e he _ => enters.expr e (hes e he)

theorem expr? {e} (he : ∀ x ∈ e, pre x) (hs : inv s) :
    Ensures (lowerExpr? env lowerSeq e) (fun e' => Chain R e.toList e'.toList s) halt s := by
  cases e with
  | none => exact .nil
  | some e => exact (enters.expr e (he e rfl) hs).bind fun e' s' h => .cons h .nil

theorem label {es} (hes : ∀ e ∈ es.getD [], pre e) (hs : inv s) :
    Ensures (lowerLabel env lowerSeq es)
      (fun es' s' => es'.isSome = es.isSome ∧ Chain R (es.getD []) (es'.getD []) s s') halt s := by
  cases es with
  | none => exact ⟨rfl, .nil⟩
  | some es => exact (enters.exprs hes hs).bind fun es' s' h => ⟨rfl, h⟩

theorem specs {specs} (h : ∀ e ∈ specs.flatMap Spec.values, pre e) (hs : inv s) :
    Ensures (lowerSpecs env lowerSeq specs) (fun specs' => SpecsChain R specs specs' s) halt s := by
  induction specs generalizing s with
  | nil => exact .nil
  | cons spec specs ih =>
    rw [flatMap_cons, forall_mem_append] at h
    cases spec with
    | value names type values =>
      refine (enters.exprs h.1 hs).bind fun values' s₁ hvalues => ?_
      exact (ih h.2 (enters.keeps_chain hvalues hs)).bind fun specs' s' hspecs =>
        .value hvalues hspecs
    | typeName => exact (ih h.2 hs).bind fun specs' s' hspecs => .typeName hspecs

end Enters

end Lowering

end ScriptLowering
