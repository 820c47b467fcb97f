import ScriptLowering.Proofs.Norms

/-!
# Reads taken out of expressions

There is something to take out of a tree exactly when something that is evaluated in it is a read.
What is left is the tree with a variable in the place of the read (`Swaps`), and nothing else
changed: whatever is known of trees part by part follows from that.
-/

namespace ScriptLowering

open List

variable {es es' : List Expr} {norm : Norm}

/-! ## What an expression evaluates -/

mutual

/-- An expression and the expressions that are evaluated with it. The body of a function literal
is evaluated when the function is called. -/
def Expr.surface (e : Expr) : List Expr :=
  e :: match e with
    | .ident .. | .lit .. | .type .. | .funcLit .. => []
    | .composite _ _ elems => surfaceOfExprs elems
    | .keyValue _ left right | .index _ left right | .binary _ _ left right =>
      left.surface ++ right.surface
    | .paren _ inner | .selector _ inner _ | .typeAssert _ inner _ | .unary _ _ inner =>
      inner.surface
    | .slice _ base low high max =>
      base.surface ++ surfaceOfExpr? low ++ surfaceOfExpr? high ++ surfaceOfExpr? max
    | .call _ callee args _ => callee.surface ++ surfaceOfExprs args

def surfaceOfExpr? : Option Expr → List Expr
  | none => []
  | some e => e.surface

def surfaceOfExprs : List Expr → List Expr
  | [] => []
  | e :: es => e.surface ++ surfaceOfExprs es

end

@[simp] theorem mem_surfaceOfExprs {x} : x ∈ surfaceOfExprs es ↔ ∃ e ∈ es, x ∈ e.surface := by
  induction es with
  | nil => simp [surfaceOfExprs]
  | cons e es ih => simp [surfaceOfExprs, ih]

theorem surfaceOfExprs_append (es es' : List Expr) :
    surfaceOfExprs (es ++ es') = surfaceOfExprs es ++ surfaceOfExprs es' := by
  induction es with
  | nil => rfl
  | cons e es ih => simp [surfaceOfExprs, ih]

theorem surfaceOfExprs_toList (e : Option Expr) : surfaceOfExprs e.toList = surfaceOfExpr? e := by
  cases e with
  | none => rfl
  | some e => simp [surfaceOfExprs, surfaceOfExpr?]

theorem Expr.mem_surface_self (e : Expr) : e ∈ e.surface := by
  unfold Expr.surface
  exact mem_cons_self

mutual

/-- The bodies of the function literals in an expression. Literals inside a body are left to
that body. -/
def Expr.bodies : Expr → List (List Stmt)
  | .ident .. | .lit .. | .type .. => []
  | .funcLit _ _ _ ⟨stmts, _⟩ => [stmts]
  | .composite _ _ elems => bodiesOfExprs elems
  | .keyValue _ left right | .index _ left right | .binary _ _ left right =>
    left.bodies ++ right.bodies
  | .paren _ inner | .selector _ inner _ | .typeAssert _ inner _ | .unary _ _ inner =>
    inner.bodies
  | .slice _ base low high max =>
    base.bodies ++ bodiesOfExpr? low ++ bodiesOfExpr? high ++ bodiesOfExpr? max
  | .call _ callee args _ => callee.bodies ++ bodiesOfExprs args

def bodiesOfExpr? : Option Expr → List (List Stmt)
  | none => []
  | some e => e.bodies

def bodiesOfExprs : List Expr → List (List Stmt)
  | [] => []
  | e :: es => e.bodies ++ bodiesOfExprs es

end

@[simp] theorem mem_bodiesOfExprs {body} : body ∈ bodiesOfExprs es ↔ ∃ e ∈ es, body ∈ e.bodies := by
  induction es with
  | nil => simp [bodiesOfExprs]
  | cons e es ih => simp [bodiesOfExprs, ih]

theorem bodiesOfExprs_append (es es' : List Expr) :
    bodiesOfExprs (es ++ es') = bodiesOfExprs es ++ bodiesOfExprs es' := by
  induction es with
  | nil => simp [bodiesOfExprs]
  | cons e es ih => simp [bodiesOfExprs, ih]

theorem bodiesOfExprs_toList (e : Option Expr) : bodiesOfExprs e.toList = bodiesOfExpr? e := by
  cases e with
  | none => rfl
  | some e => exact append_nil _

def Spec.values : Spec → List Expr
  | .value _ _ values => values
  | .typeName .. => []

def CaseClause.labels (clause : CaseClause) : List Expr := clause.exprs.getD []

/-- The expressions that a statement holds itself. -/
def StmtForm.exprs : StmtForm → List Expr
  | .decl ⟨_, specs, _⟩ => specs.flatMap Spec.values
  | .expr e | .incDec e _ | .go e | .defer e => [e]
  | .send chan value => [chan, value]
  | .assign targets _ values => targets ++ values
  | .ret values => values
  | .cond _ test _ _ => [test]
  | .switch _ tag clauses => tag.toList ++ clauses.flatMap CaseClause.labels
  | .typeSwitch _ _ clauses => clauses.flatMap CaseClause.labels
  | .loop _ test _ _ => test.toList
  | .range key value _ subject _ => key.toList ++ value.toList ++ [subject]
  | .empty | .jump .. | .labeled .. | .block _ | .select _ => []

/-- The bodies of the function literals in the expressions that a statement holds itself. -/
def StmtForm.bodies (form : StmtForm) : List (List Stmt) := bodiesOfExprs form.exprs

namespace Lowering

/-! ## Taking reads out -/

section Extraction

variable {isRead : Expr → Bool} {temp : String} {x : Extraction StmtForm} {α β : Type} {read : Expr}
  {form : StmtForm}

theorem around_eq_some {f} {o : Option (Extraction α)} {y : Extraction β} :
    around f o = some y ↔ ∃ x, o = some x ∧ x.map f = y := by
  simp [around]

theorem around_orElse {γ : Type} {f g} {o : Option (Extraction α)} {o' : Option (Extraction β)}
    {y : Extraction γ} (h : (around f o <|> around g o') = some y) :
    (∃ x, o = some x ∧ x.map f = y) ∨ ∃ x, o' = some x ∧ x.map g = y := by
  cases o with
  | none => exact .inr (by simpa [around] using h)
  | some x => exact .inl (by simpa [around] using h)

@[simp] theorem around_eq_none {f : α → β} {o} : around f o = none ↔ o = none := by
  simp [around]

@[simp] theorem orElse_eq_none {a b : Option α} : (a <|> b) = none ↔ a = none ∧ b = none := by
  cases a <;> simp

theorem eq_some_of_orElse {a b} {y : α} (h : (a <|> b) = some y) : a = some y ∨ b = some y := by
  cases a with
  | none => exact .inr h
  | some x => exact .inl h

mutual

/-- There is nothing to take out exactly when nothing that is evaluated is a read. -/
theorem extract_eq_none (guarded : Bool) (e : Expr) :
    extract isRead temp guarded e = none ↔ ∀ x ∈ e.surface, isRead x = false := by
  unfold extract Expr.surface
  by_cases hread : isRead e
  · simp [hread]
  · match e with
    | .ident .. | .lit .. | .type .. | .funcLit .. => simp [hread]
    | .composite _ _ elems => simp [hread, extractList_eq_none guarded elems]
    | .keyValue _ left right | .index _ left right | .binary _ _ left right =>
      simp [hread, extract_eq_none _ left, extract_eq_none _ right, or_imp, forall_and]
    | .paren _ inner | .selector _ inner _ | .typeAssert _ inner _ | .unary _ _ inner =>
      simp [hread, extract_eq_none guarded inner]
    | .slice _ base low high max =>
      simp [hread, extract_eq_none guarded base, extract?_eq_none guarded low,
        extract?_eq_none guarded high, extract?_eq_none guarded max, or_imp, forall_and]
    | .call _ callee args _ =>
      simp [hread, extract_eq_none guarded callee, extractList_eq_none guarded args, or_imp,
        forall_and]

theorem extract?_eq_none (guarded : Bool) (e : Option Expr) :
    extract? isRead temp guarded e = none ↔ ∀ x ∈ surfaceOfExpr? e, isRead x = false := by
  match e with
  | none => simp [extract?, surfaceOfExpr?]
  | some e => simp [extract?, surfaceOfExpr?, extract_eq_none guarded e]

theorem extractList_eq_none (guarded : Bool) (es : List Expr) :
    extractList isRead temp guarded es = none ↔ ∀ x ∈ surfaceOfExprs es, isRead x = false := by
  match es with
  | [] => simp [extractList, surfaceOfExprs]
  | e :: es =>
    simp [extractList, surfaceOfExprs, extract_eq_none guarded e, extractList_eq_none guarded es,
      or_imp, forall_and]

end

/-! ### What is left -/

/-- The second expression is the first with the variable `temp` in the place of `read`, which is
evaluated with it. -/
inductive Swaps (read : Expr) (temp : String) : Expr → Expr → Prop
  | here : Swaps read temp read (.ident read.span temp)
  | element {span type l e e' r} : Swaps read temp e e' →
    Swaps read temp (.composite span type (l ++ e :: r)) (.composite span type (l ++ e' :: r))
  | key {span e e' right} : Swaps read temp e e' →
    Swaps read temp (.keyValue span e right) (.keyValue span e' right)
  | value {span left e e'} : Swaps read temp e e' →
    Swaps read temp (.keyValue span left e) (.keyValue span left e')
  | paren {span e e'} : Swaps read temp e e' → Swaps read temp (.paren span e) (.paren span e')
  | selector {span e e' member} : Swaps read temp e e' →
    Swaps read temp (.selector span e member) (.selector span e' member)
  | typeAssert {span e e' type} : Swaps read temp e e' →
    Swaps read temp (.typeAssert span e type) (.typeAssert span e' type)
  | unary {span op e e'} : Swaps read temp e e' →
    Swaps read temp (.unary span op e) (.unary span op e')
  | base {span e e' key} : Swaps read temp e e' →
    Swaps read temp (.index span e key) (.index span e' key)
  | subscript {span base e e'} : Swaps read temp e e' →
    Swaps read temp (.index span base e) (.index span base e')
  | sliced {span e e' low high max} : Swaps read temp e e' →
    Swaps read temp (.slice span e low high max) (.slice span e' low high max)
  | low {span base e e' high max} : Swaps read temp e e' →
    Swaps read temp (.slice span base (some e) high max) (.slice span base (some e') high max)
  | high {span base low e e' max} : Swaps read temp e e' →
    Swaps read temp (.slice span base low (some e) max) (.slice span base low (some e') max)
  | max {span base low high e e'} : Swaps read temp e e' →
    Swaps read temp (.slice span base low high (some e)) (.slice span base low high (some e'))
  | callee {span e e' args spread} : Swaps read temp e e' →
    Swaps read temp (.call span e args spread) (.call span e' args spread)
  | arg {span callee l e e' r spread} : Swaps read temp e e' →
    Swaps read temp (.call span callee (l ++ e :: r) spread)
      (.call span callee (l ++ e' :: r) spread)
  | left {span op e e' right} : Swaps read temp e e' →
    Swaps read temp (.binary span op e right) (.binary span op e' right)
  | right {span op left e e'} : Swaps read temp e e' →
    Swaps read temp (.binary span op left e) (.binary span op left e')

/-- One expression of the list has a variable in the place of `read`. -/
def SwapsIn (read : Expr) (temp : String) (es es' : List Expr) : Prop :=
  ∃ l e e' r, es = l ++ e :: r ∧ es' = l ++ e' :: r ∧ Swaps read temp e e'

theorem Swaps.single {e e'} (h : Swaps read temp e e') : SwapsIn read temp [e] [e'] :=
  ⟨[], e, e', [], rfl, rfl, h⟩

theorem SwapsIn.after (h : SwapsIn read temp es es')
    (front : List Expr) : SwapsIn read temp (front ++ es) (front ++ es') := by
  obtain ⟨l, e, e', r, rfl, rfl, h⟩ := h
  exact ⟨front ++ l, e, e', r, by simp, by simp, h⟩

theorem SwapsIn.before (h : SwapsIn read temp es es')
    (back : List Expr) : SwapsIn read temp (es ++ back) (es' ++ back) := by
  obtain ⟨l, e, e', r, rfl, rfl, h⟩ := h
  exact ⟨l, e, e', r ++ back, by simp, by simp, h⟩

theorem SwapsIn.composite {span type} (h : SwapsIn read temp es es') :
    Swaps read temp (.composite span type es) (.composite span type es') := by
  obtain ⟨l, e, e', r, rfl, rfl, h⟩ := h
  exact .element h

theorem SwapsIn.args {span callee spread} (h : SwapsIn read temp es es') :
    Swaps read temp (.call span callee es spread) (.call span callee es' spread) := by
  obtain ⟨l, e, e', r, rfl, rfl, h⟩ := h
  exact .arg h

theorem SwapsIn.of_singleton {e'} (h : SwapsIn read temp es [e']) :
    ∃ e, es = [e] ∧ Swaps read temp e e' := by
  obtain ⟨l, e, e'', r, rfl, hes, h⟩ := h
  obtain ⟨rfl, rfl, rfl⟩ : l = [] ∧ e'' = e' ∧ r = [] := by
    cases l with
    | nil => simpa [eq_comm] using hes
    | cons a l => simp at hes
  exact ⟨e, rfl, h⟩

theorem SwapsIn.length_eq (h : SwapsIn read temp es es') : es'.length = es.length := by
  obtain ⟨l, e, e', r, rfl, rfl, -⟩ := h
  simp

mutual

theorem extract_swaps (guarded : Bool) (e : Expr) {x : Extraction Expr}
    (h : extract isRead temp guarded e = some x) :
    isRead x.read = true ∧ Swaps x.read temp e x.rest := by
  unfold extract at h
  split at h
  · rename_i hread
    cases h
    exact ⟨hread, .here⟩
  · match e with
    | .ident .. | .lit .. | .type .. | .funcLit .. => simp at h
    | .composite _ _ elems =>
      obtain ⟨y, hy, rfl⟩ := around_eq_some.1 h
      exact (extractList_swaps guarded elems hy).imp_right SwapsIn.composite
    | .paren _ inner =>
      obtain ⟨y, hy, rfl⟩ := around_eq_some.1 h
      exact (extract_swaps guarded inner hy).imp_right .paren
    | .selector _ inner _ =>
      obtain ⟨y, hy, rfl⟩ := around_eq_some.1 h
      exact (extract_swaps guarded inner hy).imp_right .selector
    | .typeAssert _ inner _ =>
      obtain ⟨y, hy, rfl⟩ := around_eq_some.1 h
      exact (extract_swaps guarded inner hy).imp_right .typeAssert
    | .unary _ _ inner =>
      obtain ⟨y, hy, rfl⟩ := around_eq_some.1 h
      exact (extract_swaps guarded inner hy).imp_right .unary
    | .keyValue _ left right =>
      rcases around_orElse h with ⟨y, hy, rfl⟩ | ⟨y, hy, rfl⟩
      · exact (extract_swaps _ left hy).imp_right .key
      · exact (extract_swaps _ right hy).imp_right .value
    | .index _ left right =>
      rcases around_orElse h with ⟨y, hy, rfl⟩ | ⟨y, hy, rfl⟩
      · exact (extract_swaps _ left hy).imp_right .base
      · exact (extract_swaps _ right hy).imp_right .subscript
    | .binary _ _ left right =>
      rcases around_orElse h with ⟨y, hy, rfl⟩ | ⟨y, hy, rfl⟩
      · exact (extract_swaps _ left hy).imp_right .left
      · exact (extract_swaps _ right hy).imp_right .right
    | .slice _ base low high max =>
      rcases eq_some_of_orElse h with h | h
      · obtain ⟨y, hy, rfl⟩ := around_eq_some.1 h
        exact (extract_swaps guarded base hy).imp_right .sliced
      rcases eq_some_of_orElse h with h | h
      · obtain ⟨y, hy, rfl⟩ := around_eq_some.1 h
        obtain ⟨e, z, rfl, rfl, hread, hswaps⟩ := extract?_swaps guarded low hy
        exact ⟨hread, .low hswaps⟩
      rcases around_orElse h with ⟨y, hy, rfl⟩ | ⟨y, hy, rfl⟩
      · obtain ⟨e, z, rfl, rfl, hread, hswaps⟩ := extract?_swaps guarded high hy
        exact ⟨hread, .high hswaps⟩
      · obtain ⟨e, z, rfl, rfl, hread, hswaps⟩ := extract?_swaps guarded max hy
        exact ⟨hread, .max hswaps⟩
    | .call _ callee args _ =>
      rcases around_orElse h with ⟨y, hy, rfl⟩ | ⟨y, hy, rfl⟩
      · exact (extract_swaps guarded callee hy).imp_right .callee
      · exact (extractList_swaps guarded args hy).imp_right SwapsIn.args

theorem extract?_swaps (guarded : Bool) (e : Option Expr) {x : Extraction (Option Expr)}
    (h : extract? isRead temp guarded e = some x) :
    ∃ (e0 : Expr) (y : Extraction Expr), e = some e0 ∧ x = y.map some ∧ isRead y.read = true ∧
      Swaps y.read temp e0 y.rest := by
  match e with
  | none => simp [extract?] at h
  | some e =>
    obtain ⟨y, hy, rfl⟩ := around_eq_some.1 h
    exact ⟨e, y, rfl, rfl, extract_swaps guarded e hy⟩

theorem extractList_swaps (guarded : Bool) (es : List Expr) {x : Extraction (List Expr)}
    (h : extractList isRead temp guarded es = some x) :
    isRead x.read = true ∧ SwapsIn x.read temp es x.rest := by
  match es with
  | [] => simp [extractList] at h
  | e :: es =>
    rcases around_orElse h with ⟨y, hy, rfl⟩ | ⟨y, hy, rfl⟩
    · exact (extract_swaps guarded e hy).imp_right fun hswaps => hswaps.single.before es
    · exact (extractList_swaps guarded es hy).imp_right fun hswaps => hswaps.after [e]

end

/-- A target that is an element keeps standing for one. -/
theorem extractTarget_swaps {target : Expr} {x : Extraction Expr}
    (h : extractTarget isRead temp target = some x) :
    isRead x.read = true ∧ Swaps x.read temp target x.rest ∧
      ((∀ span base key, target ≠ .index span base key) ∨ ∃ span base key,
        x.rest = .index span base key) := by
  unfold extractTarget at h
  split at h
  · rename_i span base key
    split at h
    · rcases around_orElse h with ⟨y, hy, rfl⟩ | ⟨y, hy, rfl⟩
      · obtain ⟨hread, hswaps⟩ := extract_swaps false base hy
        exact ⟨hread, .base hswaps, .inr ⟨_, _, _, rfl⟩⟩
      · obtain ⟨hread, hswaps⟩ := extract_swaps false key hy
        exact ⟨hread, .subscript hswaps, .inr ⟨_, _, _, rfl⟩⟩
    · rename_i hself
      obtain ⟨hread, hswaps⟩ := extract_swaps false _ h
      refine ⟨hread, hswaps, .inr ?_⟩
      obtain ⟨rest, read, guarded⟩ := x
      dsimp only at hread hswaps ⊢
      cases hswaps with
      | here => contradiction
      | base | subscript => exact ⟨_, _, _, rfl⟩
  · rename_i hindex
    obtain ⟨hread, hswaps⟩ := extract_swaps false _ h
    exact ⟨hread, hswaps, .inl hindex⟩

theorem extractTargets_swaps {targets : List Expr} {x : Extraction (List Expr)}
    (h : extractTargets isRead temp targets = some x) :
    isRead x.read = true ∧ ∃ l target y r, targets = l ++ target :: r ∧
      x = Extraction.map (fun rest => l ++ rest :: r) y ∧
      extractTarget isRead temp target = some y := by
  induction targets generalizing x with
  | nil => simp [extractTargets] at h
  | cons target targets ih =>
    rcases around_orElse h with ⟨y, hy, rfl⟩ | ⟨y, hy, rfl⟩
    · exact ⟨(extractTarget_swaps hy).1, [], target, y, targets, rfl, rfl, hy⟩
    · obtain ⟨hread, l, target', z, r, rfl, rfl, hz⟩ := ih hy
      exact ⟨hread, target :: l, target', z, r, rfl, rfl, hz⟩

theorem extractTargets_swapsIn {targets x} (h : extractTargets isRead temp targets = some x) :
    SwapsIn x.read temp targets x.rest := by
  obtain ⟨-, l, target, y, r, rfl, rfl, hy⟩ := extractTargets_swaps h
  exact ⟨l, target, y.rest, r, rfl, rfl, (extractTarget_swaps hy).2.1⟩

/-- One specification of the list has a variable in place of a read among its values. -/
theorem extractSpecs_swaps {specs : List Spec} {x : Extraction (List Spec)}
    (h : extractSpecs isRead temp specs = some x) :
    isRead x.read = true ∧ ∃ l names type values y r, specs = l ++ .value names type values :: r ∧
      x = Extraction.map (fun values => l ++ .value names type values :: r) y ∧
      extractList isRead temp false values = some y := by
  induction specs generalizing x with
  | nil => simp [extractSpecs] at h
  | cons spec specs ih =>
    cases spec with
    | value names type values =>
      rcases around_orElse h with ⟨y, hy, rfl⟩ | ⟨y, hy, rfl⟩
      · have hswaps := (extractList_swaps false values hy).1
        exact ⟨hswaps, [], names, type, values, y, specs, rfl, rfl, hy⟩
      · obtain ⟨hread, l, names', type', values', z, r, rfl, rfl, hz⟩ := ih hy
        exact ⟨hread, _ :: l, names', type', values', z, r, rfl, rfl, hz⟩
    | typeName name isAlias type =>
      obtain ⟨y, hy, rfl⟩ := around_eq_some.1 h
      obtain ⟨hread, l, names', type', values', z, r, rfl, rfl, hz⟩ := ih hy
      exact ⟨hread, _ :: l, names', type', values', z, r, rfl, rfl, hz⟩

/-! ### Properties that are kept -/

theorem perm_of_left {whole rest part} (h : whole.Perm (rest ++ part)) (more : List α) :
    (whole ++ more).Perm (rest ++ more ++ part) := by
  refine (h.append_right more).trans ?_
  rw [append_assoc, append_assoc]
  exact perm_append_comm.append_left rest

theorem perm_of_right {whole rest part} (h : whole.Perm (rest ++ part)) (more : List α) :
    (more ++ whole).Perm (more ++ rest ++ part) := by
  rw [append_assoc]
  exact h.append_left more

/-- The function literals are those of what is left and those of the read. -/
theorem Swaps.bodies {e e'} (h : Swaps read temp e e') :
    e.bodies.Perm (e'.bodies ++ read.bodies) := by
  induction h with
  | here => exact .refl _
  | paren _ ih | selector _ ih | typeAssert _ ih | unary _ ih => exact ih
  | key _ ih | base _ ih | left _ ih | callee _ ih => exact perm_of_left ih _
  | value _ ih | subscript _ ih | right _ ih => exact perm_of_right ih _
  | element _ ih =>
    simp only [Expr.bodies, bodiesOfExprs_append, bodiesOfExprs]
    exact perm_of_right (perm_of_left ih _) _
  | arg _ ih =>
    simp only [Expr.bodies, bodiesOfExprs_append, bodiesOfExprs]
    exact perm_of_right (perm_of_right (perm_of_left ih _) _) _
  | sliced _ ih => exact perm_of_left (perm_of_left (perm_of_left ih _) _) _
  | low _ ih => exact perm_of_left (perm_of_left (perm_of_right ih _) _) _
  | high _ ih => exact perm_of_left (perm_of_right ih _) _
  | max _ ih => exact perm_of_right ih _

theorem SwapsIn.bodies (h : SwapsIn read temp es es') :
    (bodiesOfExprs es).Perm (bodiesOfExprs es' ++ read.bodies) := by
  obtain ⟨l, e, e', r, rfl, rfl, h⟩ := h
  simp only [bodiesOfExprs_append, bodiesOfExprs]
  exact perm_of_right (perm_of_left h.bodies _) _

/-- The variable stands where the read stood. -/
theorem Swaps.fits {e e'} (h : Swaps read temp e e') (he : e.Fits norm) :
    read.Fits norm ∧ e'.Fits norm := by
  induction h with
  | here => exact ⟨he, he.span⟩
  | _ =>
    simp only [Expr.Fits, exprsFit_iff, expr?Fits] at he ⊢
    grind

theorem SwapsIn.fits (h : SwapsIn read temp es es') (hes : exprsFit norm es) :
    read.Fits norm ∧ exprsFit norm es' := by
  obtain ⟨l, e, e', r, rfl, rfl, h⟩ := h
  simp only [exprsFit_iff, forall_mem_append, forall_mem_cons] at hes ⊢
  obtain ⟨hread, he'⟩ := h.fits hes.2.1
  exact ⟨hread, hes.1, he', hes.2.2⟩

/-- Only the read itself can be a name before or after. -/
theorem Swaps.name? {e e'} (h : Swaps read temp e e') :
    e = read ∧ e' = .ident read.span temp ∨ e.name? = none ∧ e'.name? = none := by
  cases h with
  | here => exact .inl ⟨rfl, rfl⟩
  | _ => exact .inr ⟨rfl, rfl⟩

theorem specsFit_append (l r : List Spec) :
    specsFit norm (l ++ r) ↔ specsFit norm l ∧ specsFit norm r := by
  induction l with
  | nil => simp [specsFit]
  | cons spec l ih => cases spec <;> simp [specsFit, ih, and_assoc]

/-- The ways to take a read out of a statement. -/
inductive Extracts (isRead : Expr → Bool) (temp : String) : StmtForm → Extraction StmtForm → Prop
  | expr {e y} : extract isRead temp false e = some y → Extracts isRead temp (.expr e) (y.map .expr)
  | incDec {e increments y} : extractTarget isRead temp e = some y →
    Extracts isRead temp (.incDec e increments) (y.map (.incDec · increments))
  | targets {targets op values y} : extractTargets isRead temp targets = some y →
    Extracts isRead temp (.assign targets op values) (y.map (.assign · op values))
  | values {targets op values y} : extractList isRead temp false values = some y →
    Extracts isRead temp (.assign targets op values) (y.map (.assign targets op))
  | ret {values y} : extractList isRead temp false values = some y →
    Extracts isRead temp (.ret values) (y.map .ret)
  | decl {keyword specs span y} : extractSpecs isRead temp specs = some y →
    Extracts isRead temp (.decl ⟨keyword, specs, span⟩)
      (y.map fun specs => .decl ⟨keyword, specs, span⟩)
  | cond {test body otherwise y} : extract isRead temp false test = some y →
    Extracts isRead temp (.cond none test body otherwise) (y.map (.cond none · body otherwise))
  | switch {tag clauses y} : extract isRead temp false tag = some y →
    Extracts isRead temp (.switch none (some tag) clauses)
      (y.map fun tag => .switch none (some tag) clauses)
  | range {key value defines subject body y} : extract isRead temp false subject = some y →
    Extracts isRead temp (.range key value defines subject body)
      (y.map (.range key value defines · body))

theorem extracts_of_extractForm
    (h : extractForm isRead temp form = some x) : Extracts isRead temp form x := by
  unfold extractForm at h
  split at h
  · obtain ⟨y, hy, rfl⟩ := around_eq_some.1 h
    exact .expr hy
  · obtain ⟨y, hy, rfl⟩ := around_eq_some.1 h
    exact .range hy
  · rcases around_orElse h with ⟨y, hy, rfl⟩ | ⟨y, hy, rfl⟩
    · exact .targets hy
    · exact .values hy
  · obtain ⟨y, hy, rfl⟩ := around_eq_some.1 h
    exact .incDec hy
  · obtain ⟨y, hy, rfl⟩ := around_eq_some.1 h
    exact .ret hy
  · rename_i decl
    obtain ⟨keyword, specs, span⟩ := decl
    obtain ⟨y, hy, rfl⟩ := around_eq_some.1 h
    exact .decl hy
  · obtain ⟨y, hy, rfl⟩ := around_eq_some.1 h
    exact .cond hy
  · obtain ⟨y, hy, rfl⟩ := around_eq_some.1 h
    exact .switch hy
  · contradiction

/-- One expression of the statement has a variable in the place of the read. -/
theorem Extracts.swaps (h : Extracts isRead temp form x) :
    isRead x.read = true ∧ SwapsIn x.read temp form.exprs x.rest.exprs := by
  cases h with
  | expr h | cond h => exact (extract_swaps false _ h).imp_right Swaps.single
  | incDec h =>
    obtain ⟨hread, hswaps, -⟩ := extractTarget_swaps h
    exact ⟨hread, hswaps.single⟩
  | targets h => exact ⟨(extractTargets_swaps h).1, (extractTargets_swapsIn h).before _⟩
  | values h => exact (extractList_swaps false _ h).imp_right fun hswaps => hswaps.after _
  | ret h => exact extractList_swaps false _ h
  | decl h =>
    obtain ⟨hread, l, names, type, values, y, r, rfl, rfl, hy⟩ := extractSpecs_swaps h
    have hswaps := ((extractList_swaps false _ hy).2.before (r.flatMap Spec.values)).after
      (l.flatMap Spec.values)
    refine ⟨hread, ?_⟩
    simpa only [Extraction.map, StmtForm.exprs, flatMap_append, flatMap_cons,
      Spec.values] using hswaps
  | switch h => exact (extract_swaps false _ h).imp_right fun hswaps => hswaps.single.before _
  | range h => exact (extract_swaps false _ h).imp_right fun hswaps => hswaps.single.after _

/-- Taking a read out of a statement neither loses nor copies a function literal. -/
theorem Extracts.bodies
    (h : Extracts isRead temp form x) : form.bodies.Perm (x.rest.bodies ++ x.read.bodies) :=
  h.swaps.2.bodies

theorem Extracts.fits {span} (h : Extracts isRead temp form x) (hform : form.Fits norm span) :
    x.read.Fits norm ∧ x.rest.Fits norm span := by
  cases h with
  | expr h => exact (extract_swaps false _ h).2.fits hform
  | incDec h => exact (extractTarget_swaps h).2.1.fits hform
  | targets h =>
    obtain ⟨hread, hrest⟩ := (extractTargets_swapsIn h).fits hform.1
    exact ⟨hread, hrest, hform.2⟩
  | values h =>
    obtain ⟨hread, hrest⟩ := (extractList_swaps false _ h).2.fits hform.2
    exact ⟨hread, hform.1, hrest⟩
  | ret h => exact (extractList_swaps false _ h).2.fits hform
  | decl h =>
    obtain ⟨-, l, names, type, values, y, r, rfl, rfl, hy⟩ := extractSpecs_swaps h
    obtain ⟨hspan, hspecs⟩ := hform
    obtain ⟨hl, ⟨hnames, hvalues⟩, hr⟩ := (specsFit_append _ _).1 hspecs
    obtain ⟨hread, hrest⟩ := (extractList_swaps false _ hy).2.fits hvalues
    exact ⟨hread, hspan, (specsFit_append _ _).2 ⟨hl, ⟨hnames, hrest⟩, hr⟩⟩
  | cond h | switch h =>
    obtain ⟨hread, hrest⟩ := (extract_swaps false _ h).2.fits hform.2.1
    exact ⟨hread, hform.1, hrest, hform.2.2⟩
  | range h =>
    obtain ⟨hkey, hvalue, hsubject, hbody⟩ := hform
    obtain ⟨hread, hrest⟩ := (extract_swaps false _ h).2.fits hsubject
    exact ⟨hread, hkey, hvalue, hrest, hbody⟩

/-- What a target evaluates. An element that is written is not itself read. -/
def targetSurface (isRead : Expr → Bool) (target : Expr) : List Expr :=
  match target with
  | .index _ base key => if isRead target then base.surface ++ key.surface else target.surface
  | _ => target.surface

theorem extractTarget_eq_none {target} : extractTarget isRead temp target = none ↔
      ∀ x ∈ targetSurface isRead target, isRead x = false := by
  unfold extractTarget targetSurface
  cases target with
  | index span base key =>
    dsimp only
    split
    · simp [extract_eq_none, or_imp, forall_and]
    · exact extract_eq_none false _
  | _ => exact extract_eq_none false _

theorem extractTargets_eq_none {targets} : extractTargets isRead temp targets = none ↔
      ∀ target ∈ targets, ∀ x ∈ targetSurface isRead target, isRead x = false := by
  induction targets with
  | nil => simp [extractTargets]
  | cons target targets ih => simp [extractTargets, extractTarget_eq_none, ih]

theorem extractSpecs_eq_none {specs} : extractSpecs isRead temp specs = none ↔
      ∀ x ∈ surfaceOfExprs (specs.flatMap Spec.values), isRead x = false := by
  induction specs with
  | nil => simp [extractSpecs, surfaceOfExprs]
  | cons spec specs ih =>
    cases spec with
    | value names type values =>
      rw [extractSpecs, orElse_eq_none, around_eq_none, around_eq_none, extractList_eq_none, ih]
      simp only [flatMap_cons, Spec.values, mem_surfaceOfExprs, mem_append]
      grind
    | typeName name isAlias type =>
      rw [extractSpecs, around_eq_none, ih]
      rfl

/-- What a statement evaluates once and before it takes effect. -/
def StmtForm.evaluated (isRead : Expr → Bool) : StmtForm → List Expr
  | .expr e => e.surface
  | .incDec e _ => targetSurface isRead e
  | .assign targets _ values => targets.flatMap (targetSurface isRead) ++ surfaceOfExprs values
  | .ret values => surfaceOfExprs values
  | .decl ⟨_, specs, _⟩ => surfaceOfExprs (specs.flatMap Spec.values)
  | .cond none test _ _ => test.surface
  | .switch none (some tag) _ => tag.surface
  | .range _ _ _ subject _ => subject.surface
  | _ => []

theorem extractForm_eq_none :
    extractForm isRead temp form = none ↔
      ∀ x ∈ StmtForm.evaluated isRead form, isRead x = false := by
  cases form with
  | expr e => simp [extractForm, StmtForm.evaluated, extract_eq_none]
  | incDec e increments => simp [extractForm, StmtForm.evaluated, extractTarget_eq_none]
  | assign targets op values =>
    simp only [extractForm, StmtForm.evaluated, orElse_eq_none, around_eq_none,
      extractTargets_eq_none, extractList_eq_none, mem_append, mem_flatMap]
    grind
  | ret values => simp only [extractForm, StmtForm.evaluated, around_eq_none, extractList_eq_none]
  | decl decl =>
    obtain ⟨keyword, specs, span⟩ := decl
    simp only [extractForm, StmtForm.evaluated, around_eq_none, extractSpecs_eq_none]
  | cond init test body otherwise =>
    cases init <;> simp [extractForm, StmtForm.evaluated, extract_eq_none]
  | switch init tag clauses =>
    cases init <;> cases tag <;> simp [extractForm, StmtForm.evaluated, extract_eq_none]
  | range key value defines subject body =>
    simp [extractForm, StmtForm.evaluated, extract_eq_none]
  | _ => simp [extractForm, StmtForm.evaluated]

/-- Whether there is a read to take out does not depend on the name of the temporary. -/
theorem Extracts.isSome (h : Extracts isRead temp form x) (temp' : String) :
    (extractForm isRead temp' form).isSome = true := by
  have hsome : extractForm isRead temp form ≠ none := by
    cases h <;> simp_all [extractForm, around]
  rw [Option.isSome_iff_ne_none]
  exact fun hnone => hsome (extractForm_eq_none.2 (extractForm_eq_none.1 hnone))

end Extraction


end Lowering

end ScriptLowering
