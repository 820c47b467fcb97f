import ScriptLowering.Lowering.Rules

/-!
# Variables and the supply of names

The variables that a statement declares itself, and the names that the lowering takes from its
supply. For a fixed name, what a step does is one inequality between numbers of declarations: the
name is declared no more often than before, and once more when it was taken from the supply
meanwhile (`Accounts`). The supply is numbered and never goes back, so no name is taken twice.
-/

namespace ScriptLowering

/-- The name that a target defines; empty when the target is not a name. -/
def Expr.boundName (target : Expr) : String := target.name?.getD ""

/-- The names of a specification of values. -/
def Spec.names : Spec → List String
  | .value names _ _ => names.map (·.val)
  | .typeName .. => []

/-- The variables that a statement declares itself, at whatever place it stands. -/
def StmtForm.ownNames : StmtForm → List String
  | .decl ⟨_, specs, _⟩ => specs.flatMap Spec.names
  | .assign targets op _ => if op = .define then targets.map Expr.boundName else []
  | .range key value defines _ _ =>
    if defines then (key.toList ++ value.toList).map Expr.boundName else []
  | _ => []

/-- The variables that the statements declare, each of them itself. -/
def namesOf (xs : List Stmt) : List String := xs.flatMap fun x => x.form.ownNames

@[simp] theorem namesOf_nil : namesOf [] = [] := rfl

@[simp] theorem namesOf_cons (x : Stmt) (xs : List Stmt) :
    namesOf (x :: xs) = x.form.ownNames ++ namesOf xs := rfl

@[simp] theorem namesOf_append (xs ys : List Stmt) :
    namesOf (xs ++ ys) = namesOf xs ++ namesOf ys := List.flatMap_append

namespace Lowering

theorem toDigits_injective {m n} (h : Nat.toDigits 10 m = Nat.toDigits 10 n) : m = n := by
  rw [← Nat.ofDigitChars_toDigits (by decide) (by decide : 10 ≤ 10) (n := m), h,
    Nat.ofDigitChars_toDigits (by decide) (by decide)]

theorem toList_discardName (options : Options) (n : Nat) :
    (options.discardName n).toList = options.discardPrefix.toList ++ Nat.toDigits 10 n := by
  simp [Options.discardName, toString]

theorem Options.discardName_injective (options : Options) {m n}
    (h : options.discardName m = options.discardName n) : m = n := by
  have hlist := congrArg String.toList h
  rw [toList_discardName, toList_discardName, List.append_cancel_left_eq] at hlist
  exact toDigits_injective hlist

/-- The names of the supply that are numbered from `low` on and below `high`. -/
def Options.temporaries (options : Options) (low high : Nat) : List String :=
  (List.range' low (high - low)).map options.discardName

/-- Each name is declared no more often among `ys` than among `xs`, and once more when it was taken
from the supply meanwhile, while the next number rose from `low` to `high`. -/
structure Accounts (options : Options) (xs ys : List String) (low high : Nat) : Prop where
  grows : low ≤ high
  count : ∀ name, ys.count name ≤ xs.count name + (options.temporaries low high).count name

section Accounts

variable {options : Options} {xs ys zs xs' ys' : List String} {low mid high : Nat}

theorem temporaries_append (h : low ≤ mid) (h' : mid ≤ high) :
    options.temporaries low mid ++ options.temporaries mid high = options.temporaries low high := by
  have hmid : low + (mid - low) = mid := by omega
  have hlength : high - low = (mid - low) + (high - mid) := by omega
  simp only [Options.temporaries, hlength, ← List.range'_append_1, List.map_append, hmid]

theorem temporaries_succ : options.temporaries low (low + 1) = [options.discardName low] := by
  simp [Options.temporaries]

/-- Nothing is taken from the supply. -/
theorem Accounts.of_le (low : Nat) (h : ∀ name, ys.count name ≤ xs.count name) :
    Accounts options xs ys low low :=
  ⟨Nat.le_refl _, fun name => Nat.le_trans (h name) (Nat.le_add_right _ _)⟩

theorem Accounts.refl (xs : List String) (low : Nat) : Accounts options xs xs low low :=
  .of_le low fun _ => Nat.le_refl _

theorem Accounts.nil (xs : List String) (low : Nat) : Accounts options xs [] low low :=
  .of_le low fun _ => Nat.zero_le _

/-- One name is taken from the supply. -/
theorem Accounts.take (xs : List String) (low : Nat) :
    Accounts options xs [options.discardName low] low (low + 1) where
  grows := Nat.le_succ _
  count name := by
    rw [temporaries_succ]
    exact Nat.le_add_left _ _

/-- Two steps at different places, one after the other. -/
theorem Accounts.append (h : Accounts options xs ys low mid)
    (h' : Accounts options xs' ys' mid high) :
    Accounts options (xs ++ xs') (ys ++ ys') low high where
  grows := Nat.le_trans h.grows h'.grows
  count name := by
    have hfirst := h.count name
    have hsecond := h'.count name
    rw [← temporaries_append h.grows h'.grows, List.count_append, List.count_append,
      List.count_append]
    omega

end Accounts

@[simp] theorem ownNames_decl (keyword : DeclKeyword) (specs : List Spec) (span : Span) :
    (StmtForm.decl ⟨keyword, specs, span⟩).ownNames = specs.flatMap Spec.names := rfl

@[simp] theorem ownNames_varDecl (vars : List Var) (span : Span) :
    (StmtForm.decl (varDecl vars span)).ownNames = vars.map Prod.fst := by
  induction vars with
  | nil => rfl
  | cons var vars ih => exact congrArg (var.1 :: ·) ih

@[simp] theorem ownNames_assign (targets values : List Expr) :
    (StmtForm.assign targets .assign values).ownNames = [] := rfl

@[simp] theorem ownNames_define (targets values : List Expr) :
    (StmtForm.assign targets .define values).ownNames = targets.map Expr.boundName := rfl

/-- The variables that a replacement declares, in front and in the place of the statement. -/
def Replacement.names (r : Replacement) : List String := namesOf r.before ++ r.form.ownNames

end Lowering

end ScriptLowering
