import Mathlib.Tactic.FinCases
import ScriptLowering.Proofs.Respelling

/-!
# And-not on words

Expressions over 64-bit words have a value in every assignment of words to their identifiers.
Spelling and-not by a complement keeps that value, whether the and-not stands in an expression or
in a compound assignment, and touches nothing else; a scope table answers as before
(`Spelled.answers_eq`).
-/

namespace ScriptLowering

/-- An integer of the target, in two's complement. -/
abbrev Word := BitVec 64

/-- What a unary operator makes of a word, if it is one on words. -/
def UnaryOp.onWord : UnaryOp → Word → Option Word
  | plus, a => some a
  | neg, a => some (-a)
  | complement, a => some (~~~a)
  | _, _ => none

/-- What a binary operator makes of two words, if it is one on words that never fails. -/
def BinaryOp.onWords : BinaryOp → Word → Word → Option Word
  | add, a, b => some (a + b)
  | sub, a, b => some (a - b)
  | mul, a, b => some (a * b)
  | bitAnd, a, b => some (a &&& b)
  | bitOr, a, b => some (a ||| b)
  | bitXor, a, b => some (a ^^^ b)
  | andNot, a, b => some (a &&& ~~~b)
  | _, _, _ => none

/-- The value of an expression, when `literal` reads the literals and `σ` holds the identifiers. -/
def Expr.word (literal σ : String → Word) : Expr → Option Word
  | .ident _ name => some (σ name)
  | .lit _ (.int text) => some (literal text)
  | .paren _ inner => inner.word literal σ
  | .unary _ op operand => (operand.word literal σ).bind op.onWord
  | .binary _ op left right =>
    (left.word literal σ).bind fun a => (right.word literal σ).bind (op.onWords a)
  | _ => none

/-- What a compound assignment to a variable leaves. -/
def StmtForm.updateWord (literal σ : String → Word) : StmtForm → Option (String → Word)
  | .assign [.ident _ name] op [value] => do
    let result ← (← op.combines?).onWords (σ name) (← value.word literal σ)
    return Function.update σ name result
  | _ => none

/-- Expressions over words. -/
inductive Integral : Expr → Prop
  | ident {span name} : Integral (.ident span name)
  | int {span text} : Integral (.lit span (.int text))
  | paren {span inner} : Integral inner → Integral (.paren span inner)
  | unary {span op operand} : op ∈ [.plus, .neg, .complement] → Integral operand →
    Integral (.unary span op operand)
  | binary {span op left right} :
    op ∈ [.add, .sub, .mul, .bitAnd, .bitOr, .bitXor, .andNot] → Integral left → Integral right →
    Integral (.binary span op left right)

section Values

variable {e : Expr}

theorem onWord_isSome {op : UnaryOp} (h : op ∈ [.plus, .neg, .complement]) (a : Word) :
    (op.onWord a).isSome := by
  fin_cases h <;> rfl

theorem onWords_isSome {op : BinaryOp}
    (h : op ∈ [.add, .sub, .mul, .bitAnd, .bitOr, .bitXor, .andNot]) (a b : Word) :
    (op.onWords a b).isSome := by
  fin_cases h <;> rfl

theorem Integral.word_isSome (h : Integral e) (literal σ : String → Word) :
    (e.word literal σ).isSome := by
  induction h with
  | ident | int => rfl
  | paren _ ih => exact ih
  | unary hop _ ih =>
    obtain ⟨a, ha⟩ := Option.isSome_iff_exists.1 ih
    simpa [Expr.word, ha] using onWord_isSome hop a
  | binary hop _ _ ihl ihr =>
    obtain ⟨a, ha⟩ := Option.isSome_iff_exists.1 ihl
    obtain ⟨b, hb⟩ := Option.isSome_iff_exists.1 ihr
    simpa [Expr.word, ha, hb] using onWords_isSome hop a b

theorem Integral.violations_eq_nil (h : Integral e) : e.violations = [] := by
  induction h with
  | ident | int => rfl
  | paren _ ih => simpa [Expr.violations] using ih
  | unary hop _ ih => fin_cases hop <;> simpa [Expr.violations] using ih
  | binary _ _ _ ihl ihr => simp [Expr.violations, ihl, ihr]

end Values

namespace Lowering

/-- What the desugared form of an expression has to be: it has the same value, is free of and-not,
and is the same expression if there was none. -/
structure Desugars (e e' : Expr) : Prop where
  value : ∀ literal σ, e'.word literal σ = e.word literal σ
  free : ∀ x ∈ e'.surface, x.isAndNot = false
  same : (∀ x ∈ e.surface, x.isAndNot = false) → e' = e

section Expressions

variable {left left' right right' inner inner' : Expr}

theorem Desugars.paren (h : Desugars inner inner') (span : Span) :
    Desugars (.paren span inner) (.paren span inner') where
  value := h.value
  free := by simpa [Expr.surface, Expr.isAndNot] using h.free
  same hfree := by
    rw [h.same fun x hx => hfree x (by simp [Expr.surface, hx])]

theorem Desugars.unary (h : Desugars inner inner') (span : Span) (op : UnaryOp) :
    Desugars (.unary span op inner) (.unary span op inner') where
  value literal σ := by simp only [Expr.word, h.value]
  free := by simpa [Expr.surface, Expr.isAndNot] using h.free
  same hfree := by
    rw [h.same fun x hx => hfree x (by simp [Expr.surface, hx])]

theorem word_complement (literal σ : String → Word) (span : Span) (operand : Expr) :
    (complement span operand).word literal σ = (operand.word literal σ).map (~~~·) := by
  cases h : operand.word literal σ <;> simp [complement, Expr.word, h, UnaryOp.onWord]

theorem Desugars.binary (hl : Desugars left left') (hr : Desugars right right') (span : Span)
    (op : BinaryOp) : Desugars (.binary span op left right) (lowerBinary span op left' right') := by
  have hsurface : ∀ x ∈ left'.surface ++ right'.surface, x.isAndNot = false :=
    List.forall_mem_append.2 ⟨hl.free, hr.free⟩
  unfold lowerBinary
  split
  · rename_i hop
    subst hop
    refine ⟨fun literal σ => ?_, ?_, fun hfree => ?_⟩
    · simp only [Expr.word, word_complement, hl.value, hr.value]
      cases left.word literal σ <;> cases right.word literal σ <;> rfl
    · obtain ⟨hleft, hright⟩ := List.forall_mem_append.1 hsurface
      simp only [complement, Expr.surface, List.forall_mem_cons, List.forall_mem_append]
      exact ⟨rfl, hleft, rfl, rfl, rfl, hright⟩
    · exact absurd (hfree _ (Expr.mem_surface_self _)) (by simp [Expr.isAndNot])
  · rename_i hop
    refine ⟨fun literal σ => ?_, ?_, fun hfree => ?_⟩
    · simp only [Expr.word, hl.value, hr.value]
    · simpa [Expr.surface, Expr.isAndNot, hop] using hsurface
    · rw [hl.same fun x hx => hfree x (by simp [Expr.surface, hx]),
        hr.same fun x hx => hfree x (by simp [Expr.surface, hx])]

/-- An expression over words is desugared without any effect. -/
theorem lowerExpr_desugars (env : Env) (lowerBody : SequenceLowering) {e} (h : Integral e) :
    ∃ e', lowerExpr env lowerBody e = pure e' ∧ Desugars e e' := by
  induction h with
  | ident | int =>
    exact ⟨_, by rw [lowerExpr], fun _ _ => rfl, by simp [Expr.surface, Expr.isAndNot],
      fun _ => rfl⟩
  | paren _ ih =>
    obtain ⟨inner, hinner, hdesugars⟩ := ih
    exact ⟨_, by rw [lowerExpr, hinner, pure_bind], hdesugars.paren _⟩
  | unary _ _ ih =>
    obtain ⟨inner, hinner, hdesugars⟩ := ih
    exact ⟨_, by rw [lowerExpr, hinner, pure_bind], hdesugars.unary _ _⟩
  | binary _ _ _ ihl ihr =>
    obtain ⟨left, hleft, hl⟩ := ihl
    obtain ⟨right, hright, hr⟩ := ihr
    exact ⟨_, by rw [lowerExpr, hleft, pure_bind, hright, pure_bind], hl.binary hr _ _⟩

end Expressions

section Statements

variable {env : Env} {e : Expr}

/-- Without containers no rule applies to a compound assignment. -/
theorem quiet_andNot (h : ∀ place x, env.isElement place x = false) (id : NodeId)
    (span place : Span) (name : String) (e : Expr) :
    env.Quiet ⟨id, span, .assign [.ident place name] .andNot [e]⟩ where
  idle :=
    { write := rfl
      read := by
        rintro targets op _ _ _ ⟨⟩ hop
        cases hop
      define := by simp
      complete := by simp
      update := by simp [elementUpdate?, AssignOp.combines?, h]
      hoist := fun _ => extractForm_eq_none.2 fun x _ => h span x }
  hoists := rfl
  splitsPost := rfl
  splitsDecl := rfl

/-- The compound assignment is lowered to one with the complement of its value. -/
theorem lowerSeq_andNot (hres : ∀ place x, env.isElement place x = false) (h : Integral e)
    (plan : Option ReturnPlan) (fuel : Nat) (declared : List String) (id : NodeId)
    (span place : Span) (name : String) (s : State) {e'}
    (he : lowerExpr env (lowerSeq fuel ⟨env, none⟩) e = pure e') :
    lowerSeq (fuel + 2) ⟨env, plan⟩ declared
        [⟨id, span, .assign [.ident place name] .andNot [e]⟩] s =
      .ok ([⟨id, span, .assign [.ident place name] .bitAnd [complement e'.span e']⟩], s) := by
  have hown : Stmt.ownViolations ⟨id, span, .assign [.ident place name] .andNot [e]⟩ = [] := by
    simp [Stmt.ownViolations, Stmt.violations, violationsOfExprs, Expr.violations,
      h.violations_eq_nil]
  have hreturn (p : ReturnPlan) : lowerReturn env p
      ⟨id, span, .assign [.ident place name] .andNot [e]⟩ s = .ok (none, s) := rfl
  have hstep := stepAt_of_quiet (quiet_andNot hres id span place name e)
    (fun p (_ : p ∈ plan) => hreturn p) fuel declared
  have hstmt : lowerStmt (fuel + 1) ⟨env, plan⟩
      ⟨id, span, .assign [.ident place name] .andNot [e]⟩ =
      pure ⟨id, span, .assign [.ident place name] .bitAnd [complement e'.span e']⟩ := by
    rw [lowerStmt]
    simp [lowerAssign, lowerExprs, lowerExpr, Frame.literal, he]
  have hpure {α : Type} (a : α) (s : State) : (pure a : LowerM α) s = .ok (a, s) := rfl
  rw [lowerSeq, hown]
  simp [bind, StateT.bind, Except.bind, requireLegal, hpure, hstep, hstmt, lowerSeq]

end Statements

/-- Desugaring and-not keeps values. An expression over words is lowered to one with the same value
in every assignment of words, without and-not, and to itself if it has none; and `x &^= e` is
lowered to an assignment that leaves the same words. -/
theorem andNot_desugared (env : Env) {e : Expr} (h : Integral e) :
    (∀ lowerBody s, ∃ e', lowerExpr env lowerBody e s = .ok (e', s) ∧
      (∀ literal σ, ∃ v, e.word literal σ = some v ∧ e'.word literal σ = some v) ∧
      (∀ x ∈ e'.surface, x.isAndNot = false) ∧
      ((∀ x ∈ e.surface, x.isAndNot = false) → e' = e)) ∧
    ((∀ place x, env.resolver.isContainerRead place x = false) →
      ∀ plan fuel declared id span place name s,
        let stmt : Stmt := ⟨id, span, .assign [.ident place name] .andNot [e]⟩
        ∃ form, lowerSeq (fuel + 2) ⟨env, plan⟩ declared [stmt] s = .ok ([⟨id, span, form⟩], s) ∧
          ∀ literal σ, ∃ τ, stmt.form.updateWord literal σ = some τ ∧
            form.updateWord literal σ = some τ) := by
  refine ⟨fun lowerBody s => ?_, fun hres plan fuel declared id span place name s => ?_⟩
  · obtain ⟨e', hrun, hdesugars⟩ := lowerExpr_desugars env lowerBody h
    refine ⟨e', by rw [hrun]; rfl, fun literal σ => ?_, hdesugars.free, hdesugars.same⟩
    obtain ⟨v, hv⟩ := Option.isSome_iff_exists.1 (h.word_isSome literal σ)
    exact ⟨v, hv, (hdesugars.value literal σ).trans hv⟩
  · obtain ⟨e', hrun, hdesugars⟩ := lowerExpr_desugars env (lowerSeq fuel ⟨env, none⟩) h
    refine ⟨_, lowerSeq_andNot hres h plan fuel declared id span place name s hrun, ?_⟩
    intro literal σ
    obtain ⟨v, hv⟩ := Option.isSome_iff_exists.1 (h.word_isSome literal σ)
    refine ⟨Function.update σ name (σ name &&& ~~~v), ?_, ?_⟩
    · simp [StmtForm.updateWord, AssignOp.combines?, hv, BinaryOp.onWords]
    · simp [StmtForm.updateWord, AssignOp.combines?, word_complement, hdesugars.value, hv,
        BinaryOp.onWords]

/-- The expression `a &^ (b &^ -c)`. -/
def nestedAndNot : Expr :=
  .binary default .andNot (.ident default "a") (.paren default
    (.binary default .andNot (.ident default "b") (.unary default .neg (.ident default "c"))))

theorem andNot_desugared_nested :
    ∃ e', lowerExpr ⟨.blind, {}, []⟩ (fun _ stmts => pure stmts) nestedAndNot { nextId := 0 } =
        .ok (e', { nextId := 0 }) ∧
      e'.word (fun _ => 0) (fun name => if name = "a" then 13 else if name = "b" then 11 else 2) =
        some 12 := by
  obtain ⟨hexpr, -⟩ := andNot_desugared ⟨.blind, {}, []⟩ (e := nestedAndNot)
    (.binary (by decide) .ident (.paren (.binary (by decide) .ident (.unary (by decide) .ident))))
  obtain ⟨e', hrun, hvalue, -⟩ := hexpr (fun _ stmts => pure stmts) { nextId := 0 }
  obtain ⟨v, hv, hv'⟩ := hvalue (fun _ => 0)
    fun name => if name = "a" then 13 else if name = "b" then 11 else 2
  have htwelve : nestedAndNot.word (fun _ => 0)
    (fun name => if name = "a" then 13 else if name = "b" then 11 else 2) = some 12 := by decide
  exact ⟨e', hrun, hv'.trans (hv.symm.trans htwelve)⟩

end Lowering

/-! ## Types -/

/-- The second expression spells some of the and-nots of the first by a complement, none of them in
a function literal or a written type. -/
inductive Spelled : Expr → Expr → Prop
  | literal {span params results body} :
    Spelled (.funcLit span params results body) (.funcLit span params results body)
  | kept {span left left' right right'} : Spelled left left' → Spelled right right' →
    Spelled (.binary span .andNot left right) (.binary span .andNot left' right')
  | filled {e e' : Expr} {es : List Expr} (fills : Lowering.Refills e es e')
    (length : e.parts.length = es.length) (parts : ∀ x ∈ e.parts.zip es, Spelled x.1 x.2) :
    Spelled e e'

theorem Spelled.alike {e e'} (h : Spelled e e') : Alike e e' := by
  induction h with
  | literal => exact .funcLit
  | kept _ _ ihl ihr => exact .binary ihl ihr
  | filled fills length _ ih =>
    exact fills.alike (List.forall₂_iff_zip.2 ⟨length, fun hmem => ih _ hmem⟩)

/-- Spelling and-not by a complement changes no answer of a scope table, neither for the type of the
expression nor for any of its values, so a subscript of it asks the same container. -/
theorem Spelled.answers_eq {e e' : Expr} (h : Spelled e e') (table : Table) (place : Span) :
    table.resolver.typeOf e' place = table.resolver.typeOf e place ∧
      (∀ index, table.resolver.resultType e' index place =
        table.resolver.resultType e index place) ∧
      ∀ span key, table.resolver.isContainerRead place (.index span e' key) =
        table.resolver.isContainerRead place (.index span e key) := by
  have htype := h.alike.typeOf_eq table place
  refine ⟨htype.symm, fun index => ?_, fun span key => ?_⟩
  · simp only [Table.resolver, h.alike.valueType_eq]
  · simp only [Resolver.isContainerRead, htype]

/-- A literal without the bits of the variable `b`. -/
def masked : Expr := .binary default .andNot (.lit default (.int "1")) (.ident default "b")

theorem Spelled.answers_eq_masked :
    let e' := Lowering.refill masked masked.parts
    Spelled masked e' ∧ (Table.resolver { globals := [("b", .named "uint")] }).typeOf e' default =
      some ⟨.named "uint", false⟩ := by
  have hspelled : Spelled masked (Lowering.refill masked masked.parts) := by
    refine .filled (Lowering.refills_refill rfl rfl) rfl ?_
    rintro x (_ | ⟨_, _ | ⟨_, ⟨⟩⟩⟩)
    · exact .filled .lit rfl nofun
    · exact .filled .ident rfl nofun
  exact ⟨hspelled, (hspelled.answers_eq _ _).1.trans rfl⟩

end ScriptLowering
