import ScriptLowering.Proofs.Identities

/-!
# Variables of a lowered tree

A lowering moves declarations about, drops some of them, and makes new ones for names that it takes
from its supply. For a fixed name this is one inequality between numbers of declarations: a name is
declared no more often than before, and once more when it was taken from the supply meanwhile
(`Accounts`). The supply is numbered and never goes back, so no name is taken from it twice.
-/

namespace ScriptLowering

open List

namespace Lowering

/-! Entering an expression keeps the names that it binds as a target. -/

section Targets

variable {env : Env} {lowerBody : SequenceLowering} {s s' : State}

theorem lowerExpr_boundName {e e'} (h : lowerExpr env lowerBody e s = .ok (e', s')) :
    e'.boundName = e.boundName := by
  rw [Expr.boundName, ((lowerExpr_head e s).of_ok h).1, Expr.boundName]

theorem lowerExprs_boundNames {es es'} (h : lowerExprs env lowerBody es s = .ok (es', s')) :
    es'.map Expr.boundName = es.map Expr.boundName := by
  have hnames : Forall₂ (fun e e' => e'.boundName = e.boundName) es es' := by
    refine (lowerExprs_forall₂ h).imp ?_
    rintro e e' ⟨t, t', he⟩
    exact lowerExpr_boundName he
  clear h
  induction hnames with
  | nil => rfl
  | cons hname _ ih => rw [map_cons, map_cons, hname, ih]

theorem lowerExpr?_boundNames {e e'} (h : lowerExpr? env lowerBody e s = .ok (e', s')) :
    e'.toList.map Expr.boundName = e.toList.map Expr.boundName := by
  cases e with
  | none =>
    unfold lowerExpr? at h
    cases h
    rfl
  | some e =>
    unfold lowerExpr? at h
    obtain ⟨e', s1, he, h⟩ := bind_eq_ok h
    cases h
    simp [lowerExpr_boundName he]

theorem lowerSpecs_names {specs specs'} (h : lowerSpecs env lowerBody specs s = .ok (specs', s')) :
    specs'.flatMap Spec.names = specs.flatMap Spec.names := by
  induction specs generalizing specs' s with
  | nil =>
    unfold lowerSpecs at h
    cases h
    rfl
  | cons spec specs ih =>
    cases spec with
    | value names type values =>
      unfold lowerSpecs at h
      obtain ⟨values', s1, -, h⟩ := bind_eq_ok h
      obtain ⟨specs', s2, hspecs, h⟩ := bind_eq_ok h
      cases h
      rw [flatMap_cons, ih hspecs]
      rfl
    | typeName name isAlias type =>
      unfold lowerSpecs at h
      obtain ⟨specs', s1, hspecs, h⟩ := bind_eq_ok h
      cases h
      rw [flatMap_cons, ih hspecs]
      rfl

end Targets

/-- How often variables of the name are declared, and how often the name was taken from the
supply. -/
def declarations (options : Options) (name : String) : Ledger where
  weight x := x.form.ownNames.count name
  clock := State.discards
  supply low high := (options.temporaries low high).count name

section Steps

variable {env : Env} {stmt : Stmt} {s s' : State}

theorem LowersPlain.ownNames {lowerBody form form'}
    (h : LowersPlain env lowerBody form form' s s') : form'.ownNames = form.ownNames := by
  cases h with
  | decl hspecs => exact lowerSpecs_names hspecs
  | assign _ htargets =>
    rw [StmtForm.ownNames, StmtForm.ownNames, lowerExprs_boundNames htargets]
  | _ => rfl

theorem Divided.ownNames {names place form} (h : Divided names place form) :
    form.ownNames.Sublist (names.map (·.val)) := by
  rcases h with rfl | ⟨vars, hvars, rfl⟩
  · exact nil_sublist _
  · rwa [ownNames_varDecl]

theorem Settles.ownNames {plan new} (h : Settles env plan stmt s new s') :
    ∀ x ∈ new, x.form.ownNames = [] := by
  intro x hx
  rcases h.forms hx with ⟨_, _, hform⟩ | ⟨_, hform⟩ | ⟨-, _, hform⟩ <;>
    simp [hform, StmtForm.ownNames]

theorem Settles.discards {plan new} (h : Settles env plan stmt s new s') :
    s'.discards = s.discards := by
  cases h <;> rfl

theorem namesOf_eq_nil {xs} (h : ∀ x ∈ xs, x.form.ownNames = []) : namesOf xs = [] :=
  flatMap_eq_nil_iff.2 h

theorem tally_declarations {options name} (xs : List Stmt) :
    tally (declarations options name).weight xs = (namesOf xs).count name :=
  (count_flatMap).symm

theorem declarations_sound (env : Env) (name : String) :
    (declarations env.options name).Sound env where
  add h h' := by
    show count _ _ + count _ _ = count _ _
    rw [← temporaries_append h h', count_append]
  block _ _ _ := ⟨Nat.le_refl _, Nat.zero_le _⟩
  compound {form form'} _ _ _ hform' _ := by
    have hnone : form'.ownNames = [] := by
      cases form' with
      | block | cond | switch | loop => rfl
      | _ => simp [isCompound] at hform'
    show form'.ownNames.count name ≤ _
    rw [hnone]
    exact Nat.zero_le _
  range _ _ _ _ _ _ _ hkey hvalue := by
    refine Nat.le_of_eq (congrArg (count name) ?_)
    simp only [StmtForm.ownNames, map_append, lowerExpr?_boundNames hkey,
      lowerExpr?_boundNames hvalue]
  plain _ _ h := Nat.le_of_eq (congrArg (count name) h.ownNames)
  split {stmt names type value span form} s hform hnew := by
    refine ⟨Nat.le_refl _, Nat.le_add_right_of_le ?_⟩
    simp only [tally_declarations, namesOf_cons, namesOf_nil, append_nil, ownNames_assign, hform,
      ownNames_decl, flatMap_cons, flatMap_nil, Spec.names]
    exact hnew.ownNames.count_le name
  rewrites {stmt r s s'} _ heffects := by
    refine ⟨heffects.names.grows, ?_⟩
    simp only [tally_declarations, namesOf_append, namesOf_cons, namesOf_nil, append_nil]
    exact heffects.names.count name
  settles h := by
    refine ⟨Nat.le_of_eq h.discards.symm, Nat.le_trans (Nat.le_of_eq ?_) (Nat.zero_le _)⟩
    rw [tally_declarations, namesOf_eq_nil h.ownNames]
    rfl

end Steps

/-- Every run of the walk accounts for the variables of the statements it is given, at any depth,
and of those it leaves. -/
theorem Walks.accounts {env task s s'} (h : Walks env task s s') (henv : env.Positive)
    (hplan : ∀ p ∈ task.plan?, p.Ascending) :
    Accounts env.options (namesOf task.input) (namesOf task.output) s.discards s'.discards where
  grows := ((declarations_sound env "").walks h henv hplan).grows
  count name := by
    have hcount := ((declarations_sound env name).walks h henv hplan).count
    rwa [tally_declarations, tally_declarations] at hcount

end Lowering

end ScriptLowering
