import ScriptLowering.Legality
import ScriptLowering.Lowering.Header

/-!
# Norms of a tree

A norm says which places the nodes of a tree may have and which forbidden constructs may stand at a
place (`Expr.Fits` and its companions), and what may be reported of such a tree. Three norms are
used. One asks for places only, so that a report points at some place of the tree; one forbids every
construct, so that a tree with it is a legal one; and one asks for headers as the grammar makes
them, with the statements that run after a round of a loop at given places.

Fitting does not go into written types, nor into the parameter lists of function literals; no stage
names a place there.
-/

namespace ScriptLowering

open List

/-- What only the lowering reports: a type that is not known, or an element of a map without a place
for its temporary. -/
def Diagnostic.IsExcused (report : Diagnostic) : Prop :=
  report.cause = .typeResolution ∨ report.cause = .illegal .mapSubscript

/-- The statement holds no statements and does not leave the sequence. -/
def Stmt.isFlat (stmt : Stmt) : Bool :=
  match stmt.form with
  | .decl _ | .empty | .expr _ | .send .. | .incDec .. | .assign .. => true
  | _ => false

/-- What may follow an `else`. -/
def Stmt.isBranch (stmt : Stmt) : Bool :=
  match stmt.form with
  | .cond .. | .block _ => true
  | _ => false

/-- The places and the forbidden constructs that a tree may have, and the reports about it. A strict
norm also has a say on headers: only the post statement of a loop at a place with `post` may be
reported for want of a place. -/
structure Norm where
  span : Span → Prop
  construct : Construct → Span → Prop
  report : Diagnostic → Prop
  strict : Prop
  post : Span → Prop
  lenient : ¬ strict → ∀ place, span place → post place
  excused : ∀ d : Diagnostic, d.IsExcused → (∀ place, d ≠ Lowering.unplacedPost place) →
    span d.span → report d
  unplaced : ∀ place, post place → report (Lowering.unplacedPost place)
  illegal : ∀ v : Violation, construct v.construct v.span → report v.report

theorem unsupported_ne_unplacedPost (construct : Construct) (span place : Span) :
    Diagnostic.unsupported construct span ≠ Lowering.unplacedPost place := by
  intro h
  have hnotes : ([] : List String) = [_] := congrArg Diagnostic.notes h
  cases hnotes

/-- A type that is not known can be reported at every place. -/
theorem Norm.unknown (norm : Norm) {d} (hd : d.cause = .typeResolution) (h : norm.span d.span) :
    norm.report d := by
  refine norm.excused d (.inl hd) ?_ h
  rintro place rfl
  cases hd

/-- What a strict norm asks of the statements around a body: those of the header are flat, and a
condition or a block follows an `else`. -/
def Norm.Heads (norm : Norm) (init post otherwise : Option Stmt) : Prop :=
  norm.strict → (∀ x ∈ init, x.isFlat) ∧ (∀ x ∈ post, x.isFlat ∧ norm.post x.span) ∧
    ∀ x ∈ otherwise, x.isBranch

theorem Norm.Heads.post {norm : Norm} {init otherwise x} (h : norm.Heads init (some x) otherwise)
    (hspan : norm.span x.span) : norm.post x.span := by
  by_cases hstrict : norm.strict
  · exact ((h hstrict).2.1 x rfl).2
  · exact norm.lenient hstrict _ hspan

/-- A header without its initializer. -/
theorem Norm.Heads.rest {norm : Norm} {init post otherwise} (h : norm.Heads init post otherwise) :
    norm.Heads none post otherwise :=
  fun hstrict => ⟨by simp, (h hstrict).2⟩

/-- All places have `P`. -/
def Norm.at (P : Span → Prop) : Norm where
  span := P
  construct _ := P
  report d := P d.span
  strict := False
  post := P
  lenient _ _ h := h
  excused _ _ _ h := h
  unplaced _ h := h
  illegal _ h := h

/-- Nothing is forbidden in the tree. -/
def Norm.legal : Norm where
  span _ := True
  construct _ _ := False
  report := Diagnostic.IsExcused
  strict := False
  post _ := True
  lenient _ _ _ := trivial
  excused _ h _ _ := h
  unplaced _ _ := .inr rfl
  illegal _ h := h.elim

mutual

/-- The expression is within the norm, bodies of function literals included. -/
def Expr.Fits (norm : Norm) : Expr → Prop
  | .ident span _ | .type span _ => norm.span span
  | .lit span value =>
    norm.span span ∧ ∀ text, value = .imaginary text → norm.construct .imaginaryLiteral span
  | .composite span _ elems => norm.span span ∧ exprsFit norm elems
  | .keyValue span left right | .index span left right | .binary span _ left right =>
    norm.span span ∧ left.Fits norm ∧ right.Fits norm
  | .funcLit span _ _ body => norm.span span ∧ body.Fits norm
  | .paren span inner | .selector span inner _ => norm.span span ∧ inner.Fits norm
  | .typeAssert span inner _ =>
    norm.span span ∧ norm.construct .typeAssertion span ∧ inner.Fits norm
  | .unary span op inner =>
    norm.span span ∧ (op = .receive → norm.construct .channelReceive span) ∧ inner.Fits norm
  | .slice span base low high max =>
    norm.span span ∧ norm.construct .sliceExpression span ∧ base.Fits norm ∧ expr?Fits norm low ∧
      expr?Fits norm high ∧ expr?Fits norm max
  | .call span callee args _ => norm.span span ∧ callee.Fits norm ∧ exprsFit norm args

def expr?Fits (norm : Norm) : Option Expr → Prop
  | none => True
  | some e => e.Fits norm

def exprsFit (norm : Norm) : List Expr → Prop
  | [] => True
  | e :: es => e.Fits norm ∧ exprsFit norm es

def Block.Fits (norm : Norm) : Block → Prop
  | ⟨stmts, span⟩ => norm.span span ∧ stmtsFit norm stmts

/-- The statement is within the norm, and so are all in it. -/
def Stmt.Fits (norm : Norm) : Stmt → Prop
  | ⟨_, span, form⟩ => norm.span span ∧ form.Fits norm span

/-- The form is within the norm in a statement at `span`. -/
def StmtForm.Fits (norm : Norm) (span : Span) : StmtForm → Prop
  | .decl ⟨_, specs, place⟩ => norm.span place ∧ specsFit norm specs
  | .empty => True
  | .jump jump _ => (jump = .goTo → norm.construct .labeledJump span) ∧
      (jump = .fallthrough → norm.construct .fallthrough span)
  | .labeled label stmt =>
    norm.span label.span ∧ norm.construct .labeledStatement label.span ∧ stmt.Fits norm
  | .expr e | .incDec e _ => e.Fits norm
  | .go e => norm.construct .concurrentLaunch span ∧ e.Fits norm
  | .defer e => norm.construct .deferredCall span ∧ e.Fits norm
  | .send chan value => norm.construct .channelSend span ∧ chan.Fits norm ∧ value.Fits norm
  | .assign targets _ values => exprsFit norm targets ∧ exprsFit norm values
  | .ret values => exprsFit norm values
  | .block body => body.Fits norm
  | .cond init test body otherwise =>
    stmt?Fits norm init ∧ test.Fits norm ∧ body.Fits norm ∧ stmt?Fits norm otherwise ∧
      norm.Heads init none otherwise
  | .switch init tag clauses =>
    stmt?Fits norm init ∧ expr?Fits norm tag ∧ casesFit norm clauses ∧
      norm.Heads init none none
  | .typeSwitch init guard clauses =>
    norm.construct .typeSwitch span ∧ stmt?Fits norm init ∧ guard.Fits norm ∧ casesFit norm clauses
  | .select clauses => norm.construct .select span ∧ commsFit norm clauses
  | .loop init test post body =>
    stmt?Fits norm init ∧ expr?Fits norm test ∧ stmt?Fits norm post ∧ body.Fits norm ∧
      norm.Heads init post none
  | .range key value _ subject body =>
    expr?Fits norm key ∧ expr?Fits norm value ∧ subject.Fits norm ∧ body.Fits norm

def stmt?Fits (norm : Norm) : Option Stmt → Prop
  | none => True
  | some stmt => stmt.Fits norm

def stmtsFit (norm : Norm) : List Stmt → Prop
  | [] => True
  | stmt :: stmts => stmt.Fits norm ∧ stmtsFit norm stmts

def casesFit (norm : Norm) : List CaseClause → Prop
  | [] => True
  | ⟨exprs, body, span⟩ :: clauses =>
    (norm.span span ∧ labelFits norm exprs ∧ stmtsFit norm body) ∧ casesFit norm clauses

def labelFits (norm : Norm) : Option (List Expr) → Prop
  | none => True
  | some es => exprsFit norm es

def commsFit (norm : Norm) : List CommClause → Prop
  | [] => True
  | ⟨comm, body, span⟩ :: clauses =>
    (norm.span span ∧ stmt?Fits norm comm ∧ stmtsFit norm body) ∧ commsFit norm clauses

def specsFit (norm : Norm) : List Spec → Prop
  | [] => True
  | .value names _ values :: specs =>
    ((∀ name ∈ names, norm.span name.span) ∧ exprsFit norm values) ∧ specsFit norm specs
  | .typeName .. :: specs => specsFit norm specs

end

/-- The body of the function, or what the declaration binds, is within the norm. -/
def Decl.Fits (norm : Norm) : Decl → Prop
  | .func decl => ∀ body ∈ decl.body, body.Fits norm
  | .gen decl => specsFit norm decl.specs

/-! ## Trees without violations -/

section Legal

theorem Norm.legal_span {place} : Norm.legal.span place ↔ True := .rfl

theorem Norm.legal_construct {construct place} :
    Norm.legal.construct construct place ↔ False := .rfl

theorem Norm.legal_strict : Norm.legal.strict ↔ False := .rfl

attribute [local simp] Expr.Fits expr?Fits exprsFit Block.Fits Stmt.Fits StmtForm.Fits stmt?Fits
  stmtsFit casesFit labelFits specsFit Expr.violations violationsOfExpr? violationsOfExprs
  Stmt.violations violationsOfStmt? violationsOfStmts violationsOfLabels violationsOfArms
  violationsOfSpecs Norm.Heads Norm.legal_span Norm.legal_construct Norm.legal_strict

mutual

theorem Expr.fits_legal (e : Expr) : e.Fits .legal ↔ e.violations = [] := by
  cases e with
  | ident | type | typeAssert | slice => simp
  | lit span value => cases value <;> simp
  | unary span op operand => cases op <;> simp [operand.fits_legal]
  | composite span type elems => simp [exprsFit_legal elems]
  | keyValue _ left right | index _ left right | binary _ _ left right =>
    simp [left.fits_legal, right.fits_legal]
  | funcLit span params results body =>
    obtain ⟨stmts, place⟩ := body
    simp [stmtsFit_legal stmts]
  | paren _ inner | selector _ inner _ => simp [inner.fits_legal]
  | call span callee args spread => simp [callee.fits_legal, exprsFit_legal args]

theorem expr?Fits_legal (e : Option Expr) : expr?Fits .legal e ↔ violationsOfExpr? e = [] := by
  cases e with
  | none => simp
  | some e => simp [e.fits_legal]

theorem exprsFit_legal (es : List Expr) : exprsFit .legal es ↔ violationsOfExprs es = [] := by
  cases es with
  | nil => simp
  | cons e es => simp [e.fits_legal, exprsFit_legal es]

theorem Stmt.fits_legal (stmt : Stmt) : stmt.Fits .legal ↔ stmt.violations = [] := by
  obtain ⟨id, span, form⟩ := stmt
  cases form with
  | jump jump label => cases jump <;> simp
  | empty | labeled | defer | go | send | select | typeSwitch => simp
  | decl decl =>
    obtain ⟨keyword, specs, place⟩ := decl
    simp [specsFit_legal specs]
  | expr e | incDec e increments => simp [e.fits_legal]
  | assign targets op values => simp [exprsFit_legal targets, exprsFit_legal values]
  | ret values => simp [exprsFit_legal values]
  | block body =>
    obtain ⟨stmts, place⟩ := body
    simp [stmtsFit_legal stmts]
  | cond init test body otherwise =>
    obtain ⟨stmts, place⟩ := body
    simp [stmt?Fits_legal init, test.fits_legal, stmtsFit_legal stmts, stmt?Fits_legal otherwise,
      and_assoc, and_comm]
  | switch init tag clauses =>
    simp [stmt?Fits_legal init, expr?Fits_legal tag, casesFit_legal clauses, and_assoc,
      and_comm, and_left_comm]
  | loop init test post body =>
    obtain ⟨stmts, place⟩ := body
    simp [stmt?Fits_legal init, expr?Fits_legal test, stmt?Fits_legal post, stmtsFit_legal stmts,
      and_comm, and_left_comm]
  | range key value defines subject body =>
    obtain ⟨stmts, place⟩ := body
    simp [expr?Fits_legal key, expr?Fits_legal value, subject.fits_legal, stmtsFit_legal stmts]

theorem stmt?Fits_legal (stmt : Option Stmt) :
    stmt?Fits .legal stmt ↔ violationsOfStmt? stmt = [] := by
  cases stmt with
  | none => simp
  | some stmt => simpa using stmt.fits_legal

theorem stmtsFit_legal (stmts : List Stmt) :
    stmtsFit .legal stmts ↔ violationsOfStmts stmts = [] := by
  cases stmts with
  | nil => simp
  | cons stmt stmts => simp [stmt.fits_legal, stmtsFit_legal stmts]

theorem casesFit_legal (clauses : List CaseClause) : casesFit .legal clauses ↔
    violationsOfLabels clauses = [] ∧ violationsOfArms clauses = [] := by
  cases clauses with
  | nil => simp
  | cons clause clauses =>
    obtain ⟨exprs, body, span⟩ := clause
    cases exprs with
    | none =>
      simp [stmtsFit_legal body, casesFit_legal clauses, and_assoc,
        and_comm, and_left_comm]
    | some exprs =>
      simp [exprsFit_legal exprs, stmtsFit_legal body, casesFit_legal clauses, and_assoc,
        and_comm, and_left_comm]

theorem specsFit_legal (specs : List Spec) :
    specsFit .legal specs ↔ violationsOfSpecs specs = [] := by
  cases specs with
  | nil => simp
  | cons spec specs =>
    cases spec with
    | value names type values => simp [exprsFit_legal values, specsFit_legal specs]
    | typeName => simp [specsFit_legal specs]

end

end Legal

/-! ## Parts of trees -/

section Parts

variable {norm : Norm}

theorem Expr.Fits.span {e : Expr} (h : e.Fits norm) : norm.span e.span := by
  cases e <;> first | exact h | exact h.1

@[simp] theorem exprsFit_iff (es : List Expr) : exprsFit norm es ↔ ∀ e ∈ es, e.Fits norm := by
  induction es with
  | nil => simp [exprsFit]
  | cons e es ih => simp [exprsFit, ih]

@[simp] theorem expr?Fits_iff (e : Option Expr) : expr?Fits norm e ↔ ∀ x ∈ e, x.Fits norm := by
  cases e <;> simp [expr?Fits]

@[simp] theorem stmt?Fits_iff (stmt : Option Stmt) :
    stmt?Fits norm stmt ↔ ∀ x ∈ stmt, x.Fits norm := by
  cases stmt <;> simp [stmt?Fits]

@[simp] theorem stmtsFit_iff (stmts : List Stmt) :
    stmtsFit norm stmts ↔ ∀ x ∈ stmts, x.Fits norm := by
  induction stmts with
  | nil => simp [stmtsFit]
  | cons stmt stmts ih => simp [stmtsFit, ih]

@[simp] theorem labelFits_iff (label : Option (List Expr)) :
    labelFits norm label ↔ ∀ es ∈ label, ∀ e ∈ es, e.Fits norm := by
  cases label <;> simp [labelFits]

theorem Stmt.fits_iff (stmt : Stmt) :
    stmt.Fits norm ↔ norm.span stmt.span ∧ stmt.form.Fits norm stmt.span := by
  obtain ⟨id, span, form⟩ := stmt
  simp [Stmt.Fits]

theorem Stmt.Fits.span {stmt : Stmt} (h : stmt.Fits norm) : norm.span stmt.span :=
  ((Stmt.fits_iff stmt).1 h).1

theorem Block.fits_iff (body : Block) :
    body.Fits norm ↔ norm.span body.span ∧ ∀ x ∈ body.stmts, x.Fits norm := by
  obtain ⟨stmts, span⟩ := body
  simp [Block.Fits]

/-! ## Violations of a tree that fits -/

/-- All violations of a list are within the norm. -/
def Norm.Allows (norm : Norm) (violations : List Violation) : Prop :=
  ∀ v ∈ violations, norm.construct v.construct v.span

@[simp] theorem Norm.allows_nil : norm.Allows [] := by simp [Allows]

@[simp] theorem Norm.allows_singleton {construct span} :
    norm.Allows [⟨construct, span⟩] ↔ norm.construct construct span := by simp [Allows]

@[simp] theorem Norm.allows_append {violations violations'} :
    norm.Allows (violations ++ violations') ↔ norm.Allows violations ∧ norm.Allows violations' :=
  forall_mem_append

mutual

theorem Expr.Fits.allows (e : Expr) (h : e.Fits norm) : norm.Allows e.violations := by
  cases e with
  | ident | type => exact Norm.allows_nil
  | lit span value => cases value <;> simp_all [Expr.violations, Expr.Fits]
  | typeAssert | slice => exact Norm.allows_singleton.2 h.2.1
  | unary span op operand =>
    have hoperand := Expr.Fits.allows operand h.2.2
    cases op <;> simp_all [Expr.violations, Expr.Fits]
  | composite span type elems => exact exprsFit_allows elems h.2
  | keyValue _ left right | index _ left right | binary _ _ left right =>
    exact Norm.allows_append.2 ⟨Expr.Fits.allows left h.2.1, Expr.Fits.allows right h.2.2⟩
  | funcLit span params results body =>
    obtain ⟨stmts, place⟩ := body
    exact stmtsFit_allows stmts h.2.2
  | paren _ inner | selector _ inner _ => exact Expr.Fits.allows inner h.2
  | call span callee args spread =>
    exact Norm.allows_append.2 ⟨Expr.Fits.allows callee h.2.1, exprsFit_allows args h.2.2⟩

theorem expr?Fits_allows (e : Option Expr) (h : expr?Fits norm e) :
    norm.Allows (violationsOfExpr? e) := by
  cases e with
  | none => exact Norm.allows_nil
  | some e => exact Expr.Fits.allows e h

theorem exprsFit_allows (es : List Expr) (h : exprsFit norm es) :
    norm.Allows (violationsOfExprs es) := by
  cases es with
  | nil => exact Norm.allows_nil
  | cons e es => exact Norm.allows_append.2 ⟨Expr.Fits.allows e h.1, exprsFit_allows es h.2⟩

theorem Stmt.Fits.allows (stmt : Stmt) (h : stmt.Fits norm) : norm.Allows stmt.violations := by
  obtain ⟨id, span, form⟩ := stmt
  obtain ⟨-, hform⟩ := h
  cases form with
  | jump jump label => cases jump <;> simp_all [Stmt.violations, StmtForm.Fits]
  | labeled label stmt => exact Norm.allows_singleton.2 hform.2.1
  | defer | go | send | select | typeSwitch => exact Norm.allows_singleton.2 hform.1
  | empty => exact Norm.allows_nil
  | decl decl =>
    obtain ⟨keyword, specs, place⟩ := decl
    exact specsFit_allows specs hform.2
  | expr e | incDec e increments => exact Expr.Fits.allows e hform
  | assign targets op values =>
    exact Norm.allows_append.2 ⟨exprsFit_allows targets hform.1, exprsFit_allows values hform.2⟩
  | ret values => exact exprsFit_allows values hform
  | block body =>
    obtain ⟨stmts, place⟩ := body
    exact stmtsFit_allows stmts hform.2
  | cond init test body otherwise =>
    obtain ⟨stmts, place⟩ := body
    obtain ⟨hinit, htest, hbody, hotherwise, -⟩ := hform
    simp only [Stmt.violations, Norm.allows_append, and_assoc]
    exact ⟨Expr.Fits.allows test htest, stmt?Fits_allows init hinit, stmtsFit_allows stmts hbody.2,
      stmt?Fits_allows otherwise hotherwise⟩
  | switch init tag clauses =>
    obtain ⟨hinit, htag, hclauses, -⟩ := hform
    simp only [Stmt.violations, Norm.allows_append, and_assoc]
    exact ⟨expr?Fits_allows tag htag, labels_allowed clauses hclauses, stmt?Fits_allows init hinit,
      arms_allowed clauses hclauses⟩
  | loop init test post body =>
    obtain ⟨stmts, place⟩ := body
    obtain ⟨hinit, htest, hpost, hbody, -⟩ := hform
    simp only [Stmt.violations, Norm.allows_append, and_assoc]
    exact ⟨expr?Fits_allows test htest, stmt?Fits_allows init hinit, stmt?Fits_allows post hpost,
      stmtsFit_allows stmts hbody.2⟩
  | range key value defines subject body =>
    obtain ⟨stmts, place⟩ := body
    obtain ⟨hkey, hvalue, hsubject, hbody⟩ := hform
    simp only [Stmt.violations, Norm.allows_append, and_assoc]
    exact ⟨expr?Fits_allows key hkey, expr?Fits_allows value hvalue,
      Expr.Fits.allows subject hsubject, stmtsFit_allows stmts hbody.2⟩

theorem stmt?Fits_allows (stmt : Option Stmt) (h : stmt?Fits norm stmt) :
    norm.Allows (violationsOfStmt? stmt) := by
  cases stmt with
  | none => exact Norm.allows_nil
  | some stmt => exact Stmt.Fits.allows stmt h

theorem stmtsFit_allows (stmts : List Stmt) (h : stmtsFit norm stmts) :
    norm.Allows (violationsOfStmts stmts) := by
  cases stmts with
  | nil => exact Norm.allows_nil
  | cons stmt stmts =>
    exact Norm.allows_append.2 ⟨Stmt.Fits.allows stmt h.1, stmtsFit_allows stmts h.2⟩

theorem labels_allowed (clauses : List CaseClause) (h : casesFit norm clauses) :
    norm.Allows (violationsOfLabels clauses) := by
  cases clauses with
  | nil => exact Norm.allows_nil
  | cons clause clauses =>
    obtain ⟨exprs, body, span⟩ := clause
    cases exprs with
    | none => exact labels_allowed clauses h.2
    | some exprs =>
      exact Norm.allows_append.2 ⟨exprsFit_allows exprs h.1.2.1, labels_allowed clauses h.2⟩

theorem arms_allowed (clauses : List CaseClause) (h : casesFit norm clauses) :
    norm.Allows (violationsOfArms clauses) := by
  cases clauses with
  | nil => exact Norm.allows_nil
  | cons clause clauses =>
    obtain ⟨exprs, body, span⟩ := clause
    exact Norm.allows_append.2 ⟨stmtsFit_allows body h.1.2.2, arms_allowed clauses h.2⟩

theorem specsFit_allows (specs : List Spec) (h : specsFit norm specs) :
    norm.Allows (violationsOfSpecs specs) := by
  cases specs with
  | nil => exact Norm.allows_nil
  | cons spec specs =>
    cases spec with
    | value names type values =>
      exact Norm.allows_append.2 ⟨exprsFit_allows values h.1.2, specsFit_allows specs h.2⟩
    | typeName => exact specsFit_allows specs h

end

theorem Stmt.Fits.allows_own {stmt : Stmt} (h : stmt.Fits norm) :
    norm.Allows stmt.ownViolations := by
  obtain ⟨id, span, form⟩ := stmt
  have hall := Stmt.Fits.allows ⟨id, span, form⟩ h
  obtain ⟨-, hform⟩ := h
  cases form with
  | block => exact Norm.allows_nil
  | cond init test body otherwise => exact Expr.Fits.allows test hform.2.1
  | switch init tag clauses =>
    exact Norm.allows_append.2
      ⟨expr?Fits_allows tag hform.2.1, labels_allowed clauses hform.2.2.1⟩
  | loop init test post body => exact expr?Fits_allows test hform.2.1
  | range key value defines subject body =>
    obtain ⟨hkey, hvalue, hsubject, -⟩ := hform
    simp only [Stmt.ownViolations, Norm.allows_append]
    exact ⟨⟨expr?Fits_allows key hkey, expr?Fits_allows value hvalue⟩,
      Expr.Fits.allows subject hsubject⟩
  | _ => exact hall

/-- All reports of a list are within the norm. -/
def Norm.Admits (norm : Norm) (reports : List Diagnostic) : Prop := ∀ d ∈ reports, norm.report d

theorem Norm.Allows.reports {violations} (h : norm.Allows violations) :
    norm.Admits (violations.map Violation.report) := by
  intro d hmem
  obtain ⟨v, hv, rfl⟩ := mem_map.1 hmem
  exact norm.illegal v (h v hv)

end Parts

end ScriptLowering
