import ScriptLowering.Proofs.Subscripts
import ScriptLowering.Proofs.Tracking

/-!
# What entering an expression changes

The walk goes into the expressions of a statement when no rule applies at it. What comes out is
`Respelled`: it has the types it had, each subscript in it answers the question for a container as
the one it stems from did, at every place, and it is `Still`, so that entering it once more changes
nothing. A plain statement at which no rule applied is therefore one at which no rule applies
afterwards.
-/

namespace ScriptLowering

open List

variable {es es' : List Expr} {place : Span} {form form' : StmtForm}

/-! ## Expressions that stay as they are -/

/-- None of the expressions is spelled with and-not or subscripts a container that is known at its
own place. -/
def Resolver.Still (resolver : Resolver) (xs : List Expr) : Prop :=
  ∀ x ∈ xs, x.isAndNot = false ∧ resolver.isContainerRead x.span x = false

section Still

variable {resolver : Resolver} {x : Expr} {xs ys : List Expr}

@[simp] theorem Resolver.still_nil : resolver.Still [] := by simp [Still]

@[simp] theorem Resolver.still_cons :
    resolver.Still (x :: xs) ↔
      (x.isAndNot = false ∧ resolver.isContainerRead x.span x = false) ∧ resolver.Still xs :=
  forall_mem_cons

@[simp] theorem Resolver.still_append :
    resolver.Still (xs ++ ys) ↔ resolver.Still xs ∧ resolver.Still ys :=
  forall_mem_append

theorem Resolver.still_surfaceOfExprs :
    resolver.Still (surfaceOfExprs es) ↔ ∀ e ∈ es, resolver.Still e.surface := by
  induction es with
  | nil => simp [surfaceOfExprs]
  | cons e es ih => simp [surfaceOfExprs, ih]

end Still

namespace Lowering

/-- The step gives `a` and leaves the state alone, unless it runs out of fuel. -/
def Unmoved {α : Type} (m : LowerM α) (a : α) : Prop :=
  ∀ s, Ensures m (fun b s' => b = a ∧ s' = s) (· = .outOfFuel) s

namespace Unmoved

variable {α β : Type} {m : LowerM α} {f : α → LowerM β} {a : α} {b : β}

theorem pure : Unmoved (Pure.pure a) a := fun _ => ⟨rfl, rfl⟩

theorem outOfFuel : Unmoved (throw .outOfFuel : LowerM α) a := fun _ => rfl

theorem bind (h : Unmoved m a) (hf : Unmoved (f a) b) : Unmoved (m >>= f) b := by
  intro s
  refine (h s).bind ?_
  rintro _ _ ⟨rfl, rfl⟩
  exact hf _

end Unmoved

section Expressions

variable {env : Env} {lowerBody : SequenceLowering}

theorem unmoved_chain {s s'} (h : Chain (fun e e' s s' => e' = e ∧ s' = s) es es' s s') :
    es' = es ∧ s' = s := by
  induction h with
  | nil => exact ⟨rfl, rfl⟩
  | cons he _ ih => exact ⟨by rw [he.1, ih.1], ih.2.trans he.2⟩

/-- Entering an expression that is still changes nothing, if lowering its function literals
changes nothing. -/
theorem enters_unmoved : Enters env lowerBody
    (fun e => env.resolver.Still e.surface ∧
      ∀ body ∈ e.bodies, ∀ names, Unmoved (lowerBody names body) body) (fun _ => True)
    (fun e e' s s' => e' = e ∧ s' = s) (· = .outOfFuel) where
  parts he x hx := by
    rw [Expr.surface_eq, Resolver.still_cons, Resolver.still_surfaceOfExprs] at he
    refine ⟨he.1.2 x hx, fun body hbody => he.2 body ?_⟩
    rw [bodies_parts (Expr.isLiteral_of_mem_parts hx)]
    exact mem_bodiesOfExprs.2 ⟨x, hx, hbody⟩
  keeps _ _ := trivial
  body he _ := by
    refine (he.2 _ mem_cons_self _ _).mono ?_ fun _ => id
    rintro _ _ ⟨rfl, rfl⟩
    exact ⟨rfl, rfl⟩
  node he _ _ hes hfill := by
    obtain ⟨rfl, rfl⟩ := unmoved_chain hes
    exact ⟨hfill.eq_self (he.1 _ (Expr.mem_surface_self _)).1, rfl⟩
  stop he hread := by simp [(he.1 _ (Expr.mem_surface_self _)).2] at hread

theorem lowerExpr_unmoved (e : Expr) (h : env.resolver.Still e.surface)
    (hbodies : ∀ body ∈ e.bodies, ∀ names, Unmoved (lowerBody names body) body) :
    Unmoved (lowerExpr env lowerBody e) e :=
  fun _ => enters_unmoved.expr e ⟨h, hbodies⟩ trivial

theorem lowerExprs_unmoved (es : List Expr) (h : env.resolver.Still (surfaceOfExprs es))
    (hbodies : ∀ body ∈ bodiesOfExprs es, ∀ names, Unmoved (lowerBody names body) body) :
    Unmoved (lowerExprs env lowerBody es) es := by
  have hes : ∀ e ∈ es, env.resolver.Still e.surface ∧
      ∀ body ∈ e.bodies, ∀ names, Unmoved (lowerBody names body) body := by
    intro e he
    refine ⟨Resolver.still_surfaceOfExprs.1 h e he, fun body hbody => hbodies body ?_⟩
    exact mem_bodiesOfExprs.2 ⟨e, he, hbody⟩
  exact fun _ => (enters_unmoved.exprs hes trivial).mono (fun _ _ => unmoved_chain) fun _ => id

theorem lowerExpr?_unmoved (e : Option Expr) (h : env.resolver.Still (surfaceOfExpr? e))
    (hbodies : ∀ body ∈ bodiesOfExpr? e, ∀ names, Unmoved (lowerBody names body) body) :
    Unmoved (lowerExpr? env lowerBody e) e := by
  cases e with
  | none => exact .pure
  | some e => exact (lowerExpr_unmoved e h hbodies).bind .pure

theorem lowerLabel_unmoved (exprs : Option (List Expr))
    (h : env.resolver.Still (surfaceOfExprs (exprs.getD [])))
    (hbodies : ∀ body ∈ bodiesOfExprs (exprs.getD []), ∀ names, Unmoved
    (lowerBody names body) body) :
    Unmoved (lowerLabel env lowerBody exprs) exprs := by
  cases exprs with
  | none => exact .pure
  | some es => exact (lowerExprs_unmoved es h hbodies).bind .pure

theorem lowerSpecs_unmoved (specs : List Spec)
    (h : env.resolver.Still (surfaceOfExprs (specs.flatMap Spec.values)))
    (hbodies : ∀ body ∈ bodiesOfExprs (specs.flatMap Spec.values), ∀ names,
      Unmoved (lowerBody names body) body) : Unmoved (lowerSpecs env lowerBody specs) specs := by
  induction specs with
  | nil => exact .pure
  | cons spec specs ih =>
    cases spec with
    | value names type values =>
      simp only [flatMap_cons, Spec.values, surfaceOfExprs_append, bodiesOfExprs_append,
        Resolver.still_append, forall_mem_append] at h hbodies
      exact (lowerExprs_unmoved values h.1 hbodies.1).bind ((ih h.2 hbodies.2).bind .pure)
    | typeName name isAlias type =>
      exact (ih h hbodies).bind .pure

theorem lowerGenDecl_unmoved (decl : GenDecl)
    (h : env.resolver.Still (surfaceOfExprs (decl.specs.flatMap Spec.values)))
    (hbodies : ∀ body ∈ bodiesOfExprs (decl.specs.flatMap Spec.values), ∀ names,
      Unmoved (lowerBody names body) body) : Unmoved (lowerGenDecl env lowerBody decl) decl := by
  obtain ⟨keyword, specs, span⟩ := decl
  exact (lowerSpecs_unmoved specs h hbodies).bind .pure

end Expressions

end Lowering

/-! ## Where subscripts stem from -/

/-- Each of the second expressions that may subscript a container stems from one of the first: it
stands where that one stood and gets the same answer at every place. -/
def Resolver.Stems (resolver : Resolver) (xs ys : List Expr) : Prop :=
  ∀ y ∈ ys, (∀ place, resolver.isContainerRead place y = false) ∨
    ∃ x ∈ xs, x.span = y.span ∧
      ∀ place, resolver.isContainerRead place x = resolver.isContainerRead place y

section Stems

variable {resolver : Resolver} {x y : Expr} {xs ys xs' ys' : List Expr}

theorem Resolver.Stems.of_subset (h : ys ⊆ xs) : resolver.Stems xs ys :=
  fun y hy => .inr ⟨y, h hy, rfl, fun _ => rfl⟩

theorem Resolver.Stems.mono (h : resolver.Stems xs ys) (hxs : xs ⊆ xs') :
    resolver.Stems xs' ys := by
  intro y hy
  refine (h y hy).imp_right ?_
  rintro ⟨x, hx, hsame⟩
  exact ⟨x, hxs hx, hsame⟩

theorem Resolver.Stems.trans {zs} (h : resolver.Stems xs ys) (h' : resolver.Stems ys zs) :
    resolver.Stems xs zs := by
  intro z hz
  rcases h' z hz with hnone | ⟨y, hy, hspan, hsame⟩
  · exact .inl hnone
  · rcases h y hy with hnone | ⟨x, hx, hspan', hsame'⟩
    · exact .inl fun place => (hsame place).symm.trans (hnone place)
    · exact .inr ⟨x, hx, hspan'.trans hspan, fun place => (hsame' place).trans (hsame place)⟩

@[simp] theorem Resolver.stems_nil : resolver.Stems xs [] := by simp [Stems]

theorem Resolver.Stems.append (h : resolver.Stems xs ys) (h' : resolver.Stems xs' ys') :
    resolver.Stems (xs ++ xs') (ys ++ ys') :=
  forall_mem_append.2
    ⟨h.mono (subset_append_left _ _), h'.mono (subset_append_right _ _)⟩

theorem Resolver.Stems.cons (h : resolver.Stems xs ys) (hspan : x.span = y.span)
    (hsame : ∀ place, resolver.isContainerRead place x = resolver.isContainerRead place y) :
    resolver.Stems (x :: xs) (y :: ys) :=
  forall_mem_cons.2
    ⟨.inr ⟨x, mem_cons_self, hspan, hsame⟩, h.mono (subset_cons_self _ _)⟩

/-- An expression that subscripts nothing need not stem from any. -/
theorem Resolver.Stems.new (h : resolver.Stems xs ys)
    (hy : ∀ place, resolver.isContainerRead place y = false) : resolver.Stems xs (y :: ys) :=
  forall_mem_cons.2 ⟨.inl hy, h⟩

/-- No element is read in the second expressions at a place where none is read in the first. -/
theorem Resolver.Stems.clear (h : resolver.Stems xs ys)
    (hxs : ∀ x ∈ xs, resolver.isContainerRead place x = false) :
    ∀ y ∈ ys, resolver.isContainerRead place y = false := by
  intro y hy
  rcases h y hy with hnone | ⟨x, hx, -, hsame⟩
  · exact hnone place
  · exact (hsame place).symm.trans (hxs x hx)

end Stems

/-- What an expression becomes when it is entered: something alike, whose subscripts stem from those
of the expression. -/
structure Respelled (table : Table) (e e' : Expr) : Prop where
  alike : Alike e e'
  parts : table.resolver.Stems e.surface.tail e'.surface.tail

namespace Alike

variable {e e' : Expr}

theorem isBlank_eq (h : Alike e e') : e.isBlank = e'.isBlank := by
  cases h <;> rfl

end Alike

section Respelled

variable {table : Table} {e e' : Expr} {es es' : List Expr}

theorem Respelled.surface (h : Respelled table e e') :
    table.resolver.Stems e.surface e'.surface := by
  have hcons (e : Expr) : e.surface = e :: e.surface.tail := by
    unfold Expr.surface
    rfl
  rw [hcons e, hcons e']
  exact h.parts.cons h.alike.span_eq (h.alike.isContainerRead_eq table)

theorem surface_of_respelled (h : Forall₂ (Respelled table) es es') :
    table.resolver.Stems (surfaceOfExprs es) (surfaceOfExprs es') := by
  induction h with
  | nil => exact Resolver.stems_nil
  | cons he _ ih => exact he.surface.append ih

end Respelled

namespace Lowering

section Expressions

variable {env : Env} {lowerBody : SequenceLowering} {table : Table}

/-- An expression whose parts were respelled is respelled. -/
theorem Refills.respelled {e e'} (h : Refills e es e')
    (hes : Forall₂ (Respelled table) e.parts es) : Respelled table e e' := by
  refine ⟨h.alike (hes.imp fun _ _ => Respelled.alike), ?_⟩
  have hparts := surface_of_respelled hes
  rw [Expr.surface_eq, Expr.surface_eq]
  rcases h.parts_eq with ⟨hsame, -⟩ | ⟨span, left, right, left', right', rfl, rfl, rfl⟩
  · rwa [hsame]
  · obtain ⟨_, _, hleft, hright, ⟨⟩⟩ := forall₂_cons_left_iff.1 hes
    obtain ⟨_, _, hright, -, ⟨⟩⟩ := forall₂_cons_left_iff.1 hright
    simp only [Expr.parts, surfaceOfExprs, Expr.surface, complement, tail_cons, append_nil]
    exact hleft.surface.append (((hright.surface.new fun _ => rfl).new fun _ => rfl).new
      fun _ => rfl)

/-- An expression whose parts are still is, if it reads no element. -/
theorem Refills.still {e e'} (h : Refills e es e')
    (hread : table.resolver.isContainerRead e'.span e' = false)
    (hes : table.resolver.Still (surfaceOfExprs es)) : table.resolver.Still e'.surface := by
  rcases h.parts_eq with ⟨rfl, hnot⟩ | ⟨span, left, right, left', right', rfl, rfl, rfl⟩
  · rw [Expr.surface_eq]
    exact Resolver.still_cons.2 ⟨⟨hnot, hread⟩, hes⟩
  · simp only [surfaceOfExprs, Resolver.still_append] at hes
    simp [Expr.surface, complement, Expr.isAndNot, Resolver.isContainerRead, hes]

/-- How an expression is respelled and left still. -/
def Respells (table : Table) (e e' : Expr) (_ _ : State) : Prop :=
  Respelled table e e' ∧ table.resolver.Still e'.surface

theorem respells_chain {s s'} (h : Chain (Respells table) es es' s s') :
    Forall₂ (Respelled table) es es' ∧ table.resolver.Still (surfaceOfExprs es') := by
  induction h with
  | nil => exact ⟨.nil, by simp [surfaceOfExprs]⟩
  | cons he _ ih => exact ⟨.cons he.1 ih.1, Resolver.still_append.2 ⟨he.2, ih.2⟩⟩

section

variable (henv : env.resolver = table.resolver)
include henv

theorem enters_respells :
    Enters env lowerBody (fun _ => True) (fun _ => True) (Respells table) (fun _ => True) where
  parts _ _ _ := trivial
  keeps _ _ := trivial
  body _ _ := by
    refine .intro (fun _ _ _ => ⟨⟨.funcLit, by simp [Expr.surface]⟩, ?_⟩) fun _ _ => trivial
    simp [Expr.surface, Expr.isAndNot, Resolver.isContainerRead]
  node _ _ hread hes hfill := by
    obtain ⟨hparts, hstill⟩ := respells_chain hes
    have hfilled := hfill.respelled hparts
    rw [henv, hfilled.alike.isContainerRead_eq, hfilled.alike.span_eq] at hread
    exact ⟨hfilled, hfill.still hread hstill⟩
  stop _ _ := trivial

/-- Entering an expression respells it, and leaves it still. -/
theorem lowerExpr_respells (e : Expr) :
    Yields (lowerExpr env lowerBody e)
      (fun r => Respelled table e r ∧ table.resolver.Still r.surface) fun _ => True :=
  fun _ => (enters_respells henv).expr e trivial trivial

theorem lowerExpr?_respells (e : Option Expr) :
    Yields (lowerExpr? env lowerBody e)
      (fun r => table.resolver.Stems (surfaceOfExpr? e) (surfaceOfExpr? r) ∧
        table.resolver.Still (surfaceOfExpr? r)) fun _ => True := by
  cases e with
  | none => exact .pure (by simp [surfaceOfExpr?])
  | some e => exact (lowerExpr_respells henv e).bind fun e' he => .pure ⟨he.1.surface, he.2⟩

theorem lowerExprs_respells (es : List Expr) :
    Yields (lowerExprs env lowerBody es)
      (fun r => Forall₂ (Respelled table) es r ∧ table.resolver.Still (surfaceOfExprs r))
      fun _ => True :=
  fun _ => ((enters_respells henv).exprs (fun _ _ => trivial) trivial).mono
    (fun _ _ => respells_chain) fun _ => id

theorem lowerLabel_still (exprs : Option (List Expr)) :
    Yields (lowerLabel env lowerBody exprs)
      (fun r => table.resolver.Still (surfaceOfExprs (r.getD []))) fun _ => True := by
  cases exprs with
  | none => exact .pure (by simp [surfaceOfExprs])
  | some es => exact (lowerExprs_respells henv es).bind fun es' hes => .pure hes.2

/-- What a specification becomes. -/
inductive SpecRespelled (table : Table) : Spec → Spec → Prop
  | value {names type values values'} : Forall₂ (Respelled table) values values' →
    SpecRespelled table (.value names type values) (.value names type values')
  | typeName {name isAlias type} :
    SpecRespelled table (.typeName name isAlias type) (.typeName name isAlias type)

omit henv in
theorem surface_of_specs {specs specs'} (h : Forall₂ (SpecRespelled table) specs specs') :
    table.resolver.Stems (surfaceOfExprs (specs.flatMap Spec.values))
      (surfaceOfExprs (specs'.flatMap Spec.values)) := by
  induction h with
  | nil => exact Resolver.stems_nil
  | cons hspec _ ih =>
    simp only [flatMap_cons, surfaceOfExprs_append]
    cases hspec with
    | value hvalues => exact (surface_of_respelled hvalues).append ih
    | typeName => exact ih

theorem lowerSpecs_respells (specs : List Spec) :
    Yields (lowerSpecs env lowerBody specs)
      (fun r => Forall₂ (SpecRespelled table) specs r ∧
        table.resolver.Still (surfaceOfExprs (r.flatMap Spec.values))) fun _ => True := by
  induction specs with
  | nil => exact .pure ⟨.nil, by simp [surfaceOfExprs]⟩
  | cons spec specs ih =>
    cases spec with
    | value names type values =>
      refine (lowerExprs_respells henv values).bind fun values' hv => ?_
      refine ih.bind fun specs' hs => .pure ⟨.cons (.value hv.1) hs.1, ?_⟩
      simpa [Spec.values, surfaceOfExprs_append] using ⟨hv.2, hs.2⟩
    | typeName name isAlias type =>
      refine ih.bind fun specs' hs => .pure ⟨.cons .typeName hs.1, ?_⟩
      simpa [Spec.values] using hs.2

end

end Expressions

end Lowering

/-! ## Plain statements -/

namespace Lowering

/-- What is related to a single element is one. -/
theorem forall₂_singleton {α β : Type} {R} {l : List α} {b : β} (h : Forall₂ R l [b]) :
    ∃ a, l = [a] ∧ R a b := by
  cases h with
  | cons hab hnil =>
    cases hnil
    exact ⟨_, rfl, hab⟩

section Plain

variable {env : Env} {table : Table} {lowerBody : SequenceLowering} {s s' : State}

theorem isElement_eq (henv : env.resolver = table.resolver) (place : Span) :
    env.isElement place = table.resolver.isContainerRead place := by
  funext e
  rw [Env.isElement, henv]

theorem readsElement_eq_false {e} :
    env.readsElement place e = false ↔ ∀ x ∈ e.surface, env.isElement place x = false := by
  simp [Env.readsElement, extract_eq_none]

theorem hasContainerWork_eq_false {stmt} (h : env.Idle stmt)
    (hincDec : ∀ e increments, stmt.form = .incDec e increments → env.isElement stmt.span e = false)
    (hassign : ∀ targets op values, stmt.form = .assign targets op values →
      op.combines?.isSome = true → ∀ target ∈ targets, env.isElement stmt.span target = false) :
    env.hasContainerWork stmt = false := by
  unfold Env.hasContainerWork
  dsimp only
  rw [h.hoist "_", Option.isSome_none, Bool.or_false]
  split
  · exact hincDec _ _ ‹_›
  · rename_i targets op values hform
    by_contra hupdates
    simp only [Bool.not_eq_false, Bool.and_eq_true, any_eq_true] at hupdates
    obtain ⟨hop, target, htarget, hread⟩ := hupdates
    simp [hassign targets op values hform hop target htarget] at hread
  · rfl

/-- A value as an assignment has it afterwards: respelled, and behind a complement if the operator
was and-not. -/
inductive Carried (table : Table) : Expr → Expr → Prop
  | same {e e'} : Respelled table e e' → Carried table e e'
  | complement {e e'} (span : Span) : Respelled table e e' → Carried table e (complement span e')

theorem Carried.surface {e e'} (h : Carried table e e') :
    table.resolver.Stems e.surface e'.surface := by
  cases h with
  | same h => exact h.surface
  | complement span h =>
    simp only [Expr.surface, Lowering.complement]
    exact ((h.surface.new fun _ => rfl).new fun _ => rfl).new fun _ => rfl

theorem Carried.index {e span base key} (h : Carried table e (.index span base key)) :
    ∃ base' key', e = .index span base' key' := by
  cases h with
  | same h =>
    cases h.alike with
    | index => exact ⟨_, _, rfl⟩

theorem Carried.call {e span callee args spread}
    (h : Carried table e (.call span callee args spread)) :
    ∃ callee' args', e = .call span callee' args' spread := by
  cases h with
  | same h =>
    cases h.alike with
    | call | callWith => exact ⟨_, _, rfl⟩

theorem surface_of_carried (h : Forall₂ (Carried table) es es') :
    table.resolver.Stems (surfaceOfExprs es) (surfaceOfExprs es') := by
  induction h with
  | nil => exact Resolver.stems_nil
  | cons he _ ih => exact he.surface.append ih

theorem carried_complement (h : Forall₂ (Respelled table) es es') :
    Forall₂ (Carried table) es (es'.map fun e => complement e.span e) := by
  rw [forall₂_map_right_iff]
  exact h.imp fun _ e' he => .complement e'.span he

/-- What entering an assignment leaves of it. -/
structure Reassigned (table : Table) (targets : List Expr) (op : AssignOp) (values : List Expr)
    (targets' : List Expr) (op' : AssignOp) (values' : List Expr) : Prop where
  targets : Forall₂ (Respelled table) targets targets'
  values : Forall₂ (Carried table) values values'
  define : op' = .define → op = .define
  assign : op' = .assign → op = .assign
  combines : op'.combines?.isSome = op.combines?.isSome

namespace Reassigned

variable {targets targets' values values' : List Expr} {op op' : AssignOp} {id : NodeId}
  {span : Span}

theorem targetSurface_stems {target target'} (h : Respelled table target target') :
    table.resolver.Stems (targetSurface (table.resolver.isContainerRead span) target)
      (targetSurface (table.resolver.isContainerRead span) target') := by
  have hsurface := h.surface
  have hparts := h.parts
  have hsame := h.alike.isContainerRead_eq table span
  unfold targetSurface
  cases h.alike with
  | index =>
    dsimp only
    rw [← hsame]
    split
    · simpa only [Expr.surface, tail_cons] using hparts
    · exact hsurface
  | _ => exact hsurface

section

variable (h : Reassigned table targets op values targets' op' values')
include h

/-- The assignment reads no element afterwards if it read none. -/
theorem evaluated
    (hclear : ∀ x ∈ StmtForm.evaluated (table.resolver.isContainerRead span)
      (.assign targets op values), table.resolver.isContainerRead span x = false) :
    ∀ x ∈ StmtForm.evaluated (table.resolver.isContainerRead span)
      (.assign targets' op' values'), table.resolver.isContainerRead span x = false := by
  refine Resolver.Stems.clear ?_ hclear
  refine Resolver.Stems.append ?_ (surface_of_carried h.values)
  have htargets := h.targets
  clear h hclear
  induction htargets with
  | nil => exact Resolver.stems_nil
  | cons htarget _ ih =>
    rw [flatMap_cons, flatMap_cons]
    exact (targetSurface_stems htarget).append ih

/-- No rule applies at an assignment that was entered. -/
theorem idle (henv : env.resolver = table.resolver)
    (hidle : env.Idle ⟨id, span, .assign targets op values⟩) :
    env.Idle ⟨id, span, .assign targets' op' values'⟩ := by
  have hread := isElement_eq henv span
  have hlength := h.targets.length_eq
  refine ⟨⟨?_, ?_, ?_, ?_, ?_⟩, ?_⟩
  · unfold writeElement
    split
    · rename_i place base key value hform
      obtain ⟨rfl, rfl, rfl⟩ := StmtForm.assign.inj hform
      obtain ⟨target, rfl, htarget⟩ := forall₂_singleton h.targets
      obtain ⟨value', rfl, -⟩ := forall₂_singleton h.values
      obtain rfl := h.assign rfl
      have hsame := htarget.alike.isContainerRead_eq table span
      cases htarget.alike with
      | index =>
        have hwrite := hidle.write
        simp only [writeElement, hread, hsame] at hwrite ⊢
        split at hwrite
        · contradiction
        · exact if_neg ‹_›
    · rfl
  · intro targets0 op0 place base key hform hop
    obtain ⟨rfl, rfl, rfl⟩ := StmtForm.assign.inj hform
    obtain ⟨value, rfl, hvalue⟩ := forall₂_singleton h.values
    obtain ⟨base', key', rfl⟩ := hvalue.index
    have hop' : op.combines? = none := by simpa [hop] using h.combines
    exact hlength ▸ hidle.read _ _ _ _ _ rfl hop'
  · intro targets0 value hform
    obtain ⟨rfl, rfl, rfl⟩ := StmtForm.assign.inj hform
    obtain ⟨value', rfl, -⟩ := forall₂_singleton h.values
    obtain rfl := h.define rfl
    exact hlength ▸ hidle.define _ _ rfl
  · intro targets0 place callee args spread hform
    obtain ⟨rfl, rfl, rfl⟩ := StmtForm.assign.inj hform
    obtain ⟨value, rfl, hvalue⟩ := forall₂_singleton h.values
    obtain ⟨callee', args', rfl⟩ := hvalue.call
    obtain rfl := h.assign rfl
    exact hlength ▸ hidle.complete _ _ _ _ _ rfl
  · unfold elementUpdate?
    dsimp only
    split
    · contradiction
    · rename_i target0 op0 value0 hform
      obtain ⟨rfl, rfl, rfl⟩ := StmtForm.assign.inj hform
      obtain ⟨target, rfl, htarget⟩ := forall₂_singleton h.targets
      obtain ⟨value, rfl, -⟩ := forall₂_singleton h.values
      have hsame := htarget.alike.isContainerRead_eq table span
      have hupdate := hidle.update
      have hcombines := h.combines
      unfold elementUpdate? at hupdate
      cases hop' : op'.combines? with
      | none => rfl
      | some combined =>
        obtain ⟨combined', hop⟩ := Option.isSome_iff_exists.1 (by simpa [hop'] using hcombines.symm)
        simp only [hop, hread, hsame, Option.bind_eq_bind, Option.bind_some] at hupdate ⊢
        split at hupdate
        · contradiction
        · exact if_neg ‹_›
    · rfl
  · intro temp
    rw [extractForm_eq_none]
    have hclear := extractForm_eq_none.1 (hidle.hoist temp)
    rw [hread] at hclear ⊢
    exact h.evaluated hclear

theorem needsDeclarations (henv : env.resolver = table.resolver)
    (hidle : env.Idle ⟨id, span, .assign targets op values⟩)
    (hneeds : env.needsDeclarations ⟨id, span, .assign targets op values⟩ = false) :
    env.needsDeclarations ⟨id, span, .assign targets' op' values'⟩ = false := by
  have hvalue {id : NodeId} {targets : List Expr} {op : AssignOp} {value : Expr}
      (hidle : env.Idle ⟨id, span, .assign targets op [value]⟩) :
      env.isElement span value = false := by
    apply extractForm_eq_none.1 (hidle.hoist "")
    simp [StmtForm.evaluated, surfaceOfExprs, Expr.mem_surface_self]
  have hidle' := h.idle henv hidle
  by_contra hneeds'
  unfold Env.needsDeclarations at hneeds hneeds'
  split at hneeds'
  · rename_i targets0 op0 value' hform
    obtain ⟨rfl, rfl, rfl⟩ := StmtForm.assign.inj hform
    obtain ⟨value, rfl, -⟩ := forall₂_singleton h.values
    simp only [hvalue hidle', hvalue hidle, Bool.false_eq_true, if_false, Bool.not_eq_false,
      Bool.and_eq_true, Bool.or_eq_true, decide_eq_true_eq, beq_iff_eq, ← h.targets.length_eq]
      at hneeds hneeds'
    obtain ⟨hcount, hdefine | hblank⟩ := hneeds'
    · -- a definition of several names would have been split
      obtain rfl := h.define hdefine
      exact absurd (hidle.define _ _ rfl) (Nat.not_le_of_lt hcount)
    · obtain ⟨target', htarget', hblank⟩ := any_eq_true.1 hblank
      obtain ⟨target, htarget, hsame⟩ := forall₂_exists_right h.targets htarget'
      have hany : targets.any Expr.isBlank = true :=
        any_eq_true.2 ⟨target, htarget, hsame.alike.isBlank_eq ▸ hblank⟩
      simp [hcount, hany] at hneeds
  · contradiction

theorem hasContainerWork (henv : env.resolver = table.resolver)
    (hidle : env.Idle ⟨id, span, .assign targets op values⟩)
    (hwork : env.hasContainerWork ⟨id, span, .assign targets op values⟩ = false) :
    env.hasContainerWork ⟨id, span, .assign targets' op' values'⟩ = false := by
  refine hasContainerWork_eq_false (h.idle henv hidle) (by simp) ?_
  intro targets0 op0 values0 hform hop target' htarget'
  obtain ⟨rfl, rfl, rfl⟩ := StmtForm.assign.inj hform
  obtain ⟨target, htarget, hsame⟩ := forall₂_exists_right h.targets htarget'
  have hread : env.isElement span target = false := by
    unfold Env.hasContainerWork at hwork
    dsimp only at hwork
    rw [h.combines] at hop
    rw [hop, Bool.true_and, Bool.or_eq_false_iff, any_eq_false] at hwork
    simpa using hwork.1 target htarget
  rw [Env.isElement, henv] at hread ⊢
  exact (hsame.alike.isContainerRead_eq table span).symm.trans hread

end

end Reassigned

/-- At a statement that is no assignment and no update, only a read can move. -/
theorem idle_of_evaluated {stmt} (hincDec : ∀ e increments, stmt.form ≠ .incDec e increments)
    (hassign : ∀ targets op values, stmt.form ≠ .assign targets op values)
    (h : ∀ x ∈ StmtForm.evaluated (env.isElement stmt.span) stmt.form,
      env.isElement stmt.span x = false) : env.Idle stmt := by
  refine ⟨⟨?_, fun _ _ _ _ _ hform => absurd hform (hassign _ _ _),
    fun _ _ hform => absurd hform (hassign _ _ _),
    fun _ _ _ _ _ hform => absurd hform (hassign _ _ _), ?_⟩, fun _ => extractForm_eq_none.2 h⟩
  · unfold writeElement
    split
    · exact absurd ‹_› (hassign _ _ _)
    · rfl
  · unfold elementUpdate?
    split
    · exact absurd ‹_› (hincDec _ _)
    · exact absurd ‹_› (hassign _ _ _)
    · rfl

/-- What entering a statement does not disturb. -/
structure Env.Keeps (env : Env) (x y : Stmt) : Prop where
  idle : env.Idle x → env.Idle y
  hoists : env.hoists x = false → env.hoists y = false
  splitsPost : env.splitsPost x = false → env.splitsPost y = false
  splitsDecl : env.splitsDecl x = false → env.splitsDecl y = false
  needsDeclarations : env.Idle x → env.needsDeclarations x = false →
    env.needsDeclarations y = false
  hasContainerWork : env.Idle x → env.hasContainerWork x = false →
    env.hasContainerWork y = false

theorem Env.Keeps.quiet {x y} (h : env.Keeps x y) (hx : env.Quiet x) : env.Quiet y :=
  ⟨h.idle hx.idle, h.hoists hx.hoists, h.splitsPost hx.splitsPost, h.splitsDecl hx.splitsDecl⟩

/-- Entering a statement that is no declaration, assignment or update respells what it
evaluates. -/
theorem Env.Keeps.of_evaluated {id span} (henv : env.resolver = table.resolver)
    (hincDec : ∀ e increments, form' ≠ .incDec e increments)
    (hassign : ∀ targets op values, form' ≠ .assign targets op values)
    (hevaluated : table.resolver.Stems
      (StmtForm.evaluated (table.resolver.isContainerRead span) form)
      (StmtForm.evaluated (table.resolver.isContainerRead span) form'))
    (hhoists : env.hoists ⟨id, span, form⟩ = false → env.hoists ⟨id, span, form'⟩ = false)
    (hsplitsPost : env.splitsPost ⟨id, span, form⟩ = false →
      env.splitsPost ⟨id, span, form'⟩ = false)
    (hsplitsDecl : env.splitsDecl ⟨id, span, form⟩ = false →
      env.splitsDecl ⟨id, span, form'⟩ = false) : env.Keeps ⟨id, span, form⟩ ⟨id, span, form'⟩ := by
  have hread := isElement_eq henv span
  have hidle (h : env.Idle ⟨id, span, form⟩) : env.Idle ⟨id, span, form'⟩ := by
    refine idle_of_evaluated hincDec hassign ?_
    have hclear := extractForm_eq_none.1 (h.hoist "")
    rw [hread] at hclear ⊢
    exact hevaluated.clear hclear
  refine ⟨hidle, hhoists, hsplitsPost, hsplitsDecl, fun _ _ => ?_, fun h _ => ?_⟩
  · unfold Env.needsDeclarations
    split
    · exact absurd ‹_› (hassign _ _ _)
    · rfl
  · exact hasContainerWork_eq_false (hidle h) (fun _ _ hform => absurd hform (hincDec _ _))
      fun _ _ _ hform => absurd hform (hassign _ _ _)

theorem Reassigned.keeps {targets targets' values values' op op'}
    (h : Reassigned table targets op values targets' op' values')
    (henv : env.resolver = table.resolver) (id : NodeId) (span : Span) :
    env.Keeps ⟨id, span, .assign targets op values⟩ ⟨id, span, .assign targets' op' values'⟩ :=
  ⟨h.idle henv, fun _ => rfl, fun _ => rfl, fun _ => rfl, h.needsDeclarations henv,
    h.hasContainerWork henv⟩

theorem keeps_incDec {e e'} (h : Respelled table e e') (henv : env.resolver = table.resolver)
    (id : NodeId) (span : Span) (increments : Bool) :
    env.Keeps ⟨id, span, .incDec e increments⟩ ⟨id, span, .incDec e' increments⟩ := by
  have hread := isElement_eq henv span
  have hsame := h.alike.isContainerRead_eq table span
  have hnot (hupdate : elementUpdate? env ⟨id, span, .incDec e increments⟩ = none) :
      env.isElement span e' = false := by
    simpa [elementUpdate?, hread, hsame] using hupdate
  have hidle (hx : env.Idle ⟨id, span, .incDec e increments⟩) :
      env.Idle ⟨id, span, .incDec e' increments⟩ := by
    refine ⟨⟨rfl, by simp, by simp, by simp, ?_⟩, fun temp => extractForm_eq_none.2 ?_⟩
    · simp [elementUpdate?, hnot hx.update]
    · have hclear := extractForm_eq_none.1 (hx.hoist temp)
      rw [hread] at hclear ⊢
      exact (Reassigned.targetSurface_stems h).clear hclear
  refine ⟨hidle, fun _ => rfl, fun _ => rfl, fun _ => rfl, fun _ _ => rfl, fun hx _ => ?_⟩
  refine hasContainerWork_eq_false (hidle hx) ?_ (by simp)
  intro e0 increments0 hform
  obtain ⟨rfl, rfl⟩ := StmtForm.incDec.inj hform
  exact hnot hx.update

/-- Entering a declaration leaves it whole if it was. -/
theorem splitsDecl_of_specs {id} {span : Span} {keyword : DeclKeyword} {specs specs'}
    (h : Forall₂ (SpecRespelled table) specs specs') (henv : env.resolver = table.resolver)
    (hsplits : env.splitsDecl ⟨id, span, .decl ⟨keyword, specs, place⟩⟩ = false) :
    env.splitsDecl ⟨id, span, .decl ⟨keyword, specs', place⟩⟩ = false := by
  unfold Env.splitsDecl at hsplits ⊢
  split
  · rename_i names type value' place' hform
    obtain ⟨rfl, rfl, rfl⟩ := GenDecl.mk.inj (StmtForm.decl.inj hform)
    obtain ⟨spec, rfl, hspec⟩ := forall₂_singleton h
    cases hspec with
    | value hvalues =>
      obtain ⟨value, rfl, hvalue⟩ := forall₂_singleton hvalues
      dsimp only at hsplits
      rw [Env.isElement, henv] at hsplits ⊢
      rwa [← hvalue.alike.isContainerRead_eq table span]
  · rfl

theorem LowersPlain.keeps (h : LowersPlain env lowerBody form form' s s')
    (henv : env.resolver = table.resolver) (id : NodeId) (span : Span) :
    env.Keeps ⟨id, span, form⟩ ⟨id, span, form'⟩ := by
  cases h with
  | decl h =>
    have hspecs := ((lowerSpecs_respells henv _).of_ok h).1
    exact .of_evaluated henv (by simp) (by simp) (surface_of_specs hspecs) (fun _ => rfl)
      (fun _ => rfl)
      (splitsDecl_of_specs hspecs henv)
  | expr h =>
    have hrespelled := ((lowerExpr_respells henv _).of_ok h).1
    exact .of_evaluated henv (by simp) (by simp) hrespelled.surface (fun _ => rfl) (fun _ => rfl)
      fun _ => rfl
  | incDec h => exact keeps_incDec ((lowerExpr_respells henv _).of_ok h).1 henv id span _
  | assign hop htargets hvalues =>
    have htargets' := ((lowerExprs_respells henv _).of_ok htargets).1
    have hvalues' := ((lowerExprs_respells henv _).of_ok hvalues).1
    exact Reassigned.keeps
      ⟨htargets', hvalues'.imp fun _ _ => .same, fun h => h, fun h => h, rfl⟩ henv _ _
  | andNot htargets hvalues =>
    have htargets' := ((lowerExprs_respells henv _).of_ok htargets).1
    have hvalues' := ((lowerExprs_respells henv _).of_ok hvalues).1
    have hreassigned : Reassigned table _ .andNot _ _ .bitAnd _ :=
      ⟨htargets', carried_complement hvalues', by simp, by simp, rfl⟩
    exact hreassigned.keeps henv _ _
  | ret h =>
    have hrespelled := ((lowerExprs_respells henv _).of_ok h).1
    exact .of_evaluated henv (by simp) (by simp) (surface_of_respelled hrespelled) (fun _ => rfl)
      (fun _ => rfl) fun _ => rfl
  | empty | jump =>
    exact .of_evaluated henv (by simp) (by simp) (.of_subset (Subset.refl _)) (fun _ => rfl)
      (fun _ => rfl) fun _ => rfl

/-- The subscripts of a plain statement that was entered stem from those of the statement. -/
theorem LowersPlain.stems (h : LowersPlain env lowerBody form form' s s')
    (henv : env.resolver = table.resolver) :
    table.resolver.Stems (surfaceOfExprs form.exprs) (surfaceOfExprs form'.exprs) := by
  cases h with
  | decl h => exact surface_of_specs ((lowerSpecs_respells henv _).of_ok h).1
  | expr h | incDec h =>
    simpa [StmtForm.exprs, surfaceOfExprs] using ((lowerExpr_respells henv _).of_ok h).1.surface
  | assign hop htargets hvalues =>
    simp only [StmtForm.exprs, surfaceOfExprs_append]
    exact (surface_of_respelled ((lowerExprs_respells henv _).of_ok htargets).1).append
      (surface_of_respelled ((lowerExprs_respells henv _).of_ok hvalues).1)
  | andNot htargets hvalues =>
    simp only [StmtForm.exprs, surfaceOfExprs_append]
    exact (surface_of_respelled ((lowerExprs_respells henv _).of_ok htargets).1).append
      (surface_of_carried (carried_complement ((lowerExprs_respells henv _).of_ok hvalues).1))
  | ret h => exact surface_of_respelled ((lowerExprs_respells henv _).of_ok h).1
  | empty | jump => exact Resolver.stems_nil

/-- Nothing is left to respell in a plain statement that was entered. -/
theorem LowersPlain.still (h : LowersPlain env lowerBody form form' s s')
    (henv : env.resolver = table.resolver) :
    table.resolver.Still (surfaceOfExprs form'.exprs) ∧
      ∀ targets values, form' ≠ .assign targets .andNot values := by
  cases h with
  | decl h => exact ⟨((lowerSpecs_respells henv _).of_ok h).2, by simp⟩
  | expr h | incDec h =>
    have hstill := ((lowerExpr_respells henv _).of_ok h).2
    exact ⟨by simpa [StmtForm.exprs, surfaceOfExprs] using hstill, by simp⟩
  | assign hop htargets hvalues =>
    have htargets' := ((lowerExprs_respells henv _).of_ok htargets).2
    have hvalues' := ((lowerExprs_respells henv _).of_ok hvalues).2
    refine ⟨?_, fun targets values hform => hop (StmtForm.assign.inj hform).2.1⟩
    rw [StmtForm.exprs, surfaceOfExprs_append]
    exact Resolver.still_append.2 ⟨htargets', hvalues'⟩
  | andNot htargets hvalues =>
    have htargets' := ((lowerExprs_respells henv _).of_ok htargets).2
    have hvalues' := ((lowerExprs_respells henv _).of_ok hvalues).2
    refine ⟨?_, by simp⟩
    rw [StmtForm.exprs, surfaceOfExprs_append]
    refine Resolver.still_append.2 ⟨htargets', ?_⟩
    rw [Resolver.still_surfaceOfExprs] at hvalues' ⊢
    intro e he
    obtain ⟨value, hvalue, rfl⟩ := mem_map.1 he
    simpa [complement, Expr.surface, Expr.isAndNot, Resolver.isContainerRead] using
      hvalues' value hvalue
  | ret h => exact ⟨((lowerExprs_respells henv _).of_ok h).2, by simp⟩
  | empty | jump => exact ⟨by simp [StmtForm.exprs, surfaceOfExprs], by simp⟩

end Plain

end Lowering

end ScriptLowering
