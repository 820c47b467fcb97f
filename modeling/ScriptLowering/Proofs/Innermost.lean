import ScriptLowering.Proofs.Visibility

/-!
# The innermost binding

A scope table compares bindings by the width of their scopes. That finds the innermost one because
scopes are spans of nodes: of two scopes around one place, one lies in the other, so the narrowest
lies in all of them (`SourceFile.lookup_innermost`).
-/

namespace ScriptLowering

open List

open Grammar

namespace Binding

variable {x y z : Binding} {l : List Binding}

theorem shadows_irrefl (x : Binding) : x.shadows x = false := by
  simp [shadows]

theorem shadows_asymm (h : x.shadows y = true) : y.shadows x = false := by
  simp only [shadows, Bool.or_eq_true, Bool.and_eq_true, decide_eq_true_eq, beq_iff_eq,
    Bool.or_eq_false_iff, Bool.and_eq_false_iff, decide_eq_false_iff_not,
    beq_eq_false_iff_ne] at h ⊢
  omega

theorem not_shadows_iff : x.shadows y = false ↔ y.scope.width ≤ x.scope.width ∧
    (x.scope.width = y.scope.width → x.visibleFrom ≤ y.visibleFrom) := by
  simp only [shadows, Bool.or_eq_false_iff, Bool.and_eq_false_iff, decide_eq_false_iff_not,
    beq_eq_false_iff_ne]
  omega

theorem not_shadows_trans (h : x.shadows y = false) (h' : y.shadows z = false) :
    x.shadows z = false := by
  rw [not_shadows_iff] at h h' ⊢
  omega

/-- The innermost binding is one of the bindings, and none of them shadows it. -/
theorem innermost?_spec (h : innermost? l = some x) : x ∈ l ∧ ∀ y ∈ l, y.shadows x = false := by
  cases l with
  | nil => cases h
  | cons first rest =>
    obtain rfl := Option.some.inj h
    clear h
    induction rest generalizing first with
    | nil => simp [shadows_irrefl]
    | cons y rest ih =>
      rw [foldl_cons]
      -- Neither of the first two shadows the one of them that goes on.
      cases hy : y.shadows first with
      | true =>
        obtain ⟨hmem, hnone⟩ := ih y
        have hfirst := not_shadows_trans (shadows_asymm hy) (hnone y mem_cons_self)
        exact ⟨mem_cons_of_mem _ hmem, forall_mem_cons.2 ⟨hfirst, hnone⟩⟩
      | false =>
        obtain ⟨hmem, hnone⟩ := ih first
        obtain ⟨hfirst, hrest⟩ := forall_mem_cons.1 hnone
        refine ⟨by simp only [mem_cons] at hmem ⊢; exact hmem.imp_right .inr, ?_⟩
        simp only [forall_mem_cons]
        exact ⟨hfirst, not_shadows_trans hy hfirst, hrest⟩

theorem exists_innermost? (hx : x ∈ l) : ∃ y, innermost? l = some y := by
  cases l with
  | nil => cases hx
  | cons => exact ⟨_, rfl⟩

/-- A binding that shadows all others is the innermost one. -/
theorem innermost?_eq (hx : x ∈ l) (h : ∀ y ∈ l, y = x ∨ x.shadows y = true) :
    innermost? l = some x := by
  obtain ⟨y, hy⟩ := exists_innermost? hx
  obtain ⟨hmem, hnone⟩ := innermost?_spec hy
  rcases h y hmem with rfl | hshadows
  · exact hy
  · simp [hnone x hx] at hshadows

end Binding

namespace SourceFile

variable {options : Token.ScanOptions} {index : Nat} {source : String} {file : SourceFile}
  {place : Span}

/-- The bindings of a name that a question at a place is about. -/
abbrev Candidate (file : SourceFile) (name : String) (place : Span) (x : Binding) : Prop :=
  x ∈ (Table.ofFile file).bindings ∧ x.name = name ∧ x.Reaches place

/-- Of two scopes around a place, one lies in the other. -/
theorem scopes_nested (hfile : ofSource options index source = .ok file)
    (hroom : place.start < place.stop) {x y} (hx : x ∈ (Table.ofFile file).bindings)
    (hy : y ∈ (Table.ofFile file).bindings) (hx' : x.scope.contains place = true)
    (hy' : y.scope.contains place = true) :
    x.scope.contains y.scope = true ∨ y.scope.contains x.scope = true := by
  obtain ⟨a, b, -, hdecls⟩ := ofSource_placed hfile
  obtain ⟨left, hleft, owner, _, _, habove, howns, hx⟩ := owner_of_mem hx
  obtain ⟨right, hright, owner', _, _, habove', howns', hy⟩ := owner_of_mem hy
  rw [(Binder.of_mem hx).1, howns.scope_eq] at hx' ⊢
  rw [(Binder.of_mem hy).1, howns'.scope_eq] at hy' ⊢
  have hmeets : owner.span.Meets owner'.span := by
    obtain ⟨-, hstart, hstop⟩ := Span.contains_iff.1 hy'
    exact (Span.meets_of_contains hx' hroom).mono (Nat.le_refl _) (Nat.le_refl _) hstart hstop
  refine (hdecls.above_or_above hleft hright habove habove' hmeets).imp ?_ ?_
  · exact ((hdecls.mem Placed.local hleft).above habove).contains
  · exact ((hdecls.mem Placed.local hright).above habove').contains

/-- A name is looked up in the binding whose scope lies in the scopes of all others that reach the
place, the last one of that scope; only if there is none, among the variables of the package. -/
theorem lookup_innermost (hfile : ofSource options index source = .ok file)
    (hroom : place.start < place.stop) (name : String) :
    (∀ x ∈ (Table.ofFile file).bindings, ∀ y ∈ (Table.ofFile file).bindings,
      x.scope.contains place = true → y.scope.contains place = true →
        x.scope.contains y.scope = true ∨ y.scope.contains x.scope = true) ∧
    ((∃ x, file.Candidate name place x) → ∃ x, file.Candidate name place x ∧
      (Table.ofFile file).lookup name place = some x.type ∧
      ∀ y, file.Candidate name place y → y.scope.contains x.scope = true ∧
        (y.scope = x.scope → y.visibleFrom ≤ x.visibleFrom)) ∧
    ((¬ ∃ x, file.Candidate name place x) →
      (Table.ofFile file).lookup name place = (Table.ofFile file).globals.lookup name) := by
  have hmem (x : Binding) : x ∈ (Table.ofFile file).bindings.filter (·.isVisible name place) ↔
      file.Candidate name place x := by
    rw [mem_filter, Binding.isVisible_iff]
  refine ⟨fun x hx y hy => scopes_nested hfile hroom hx hy, ?_, fun hnone => ?_⟩
  · rintro ⟨z, hz⟩
    obtain ⟨x, hx⟩ := Binding.exists_innermost? ((hmem z).2 hz)
    obtain ⟨hcandidate, hinner⟩ := Binding.innermost?_spec hx
    have hcandidate := (hmem x).1 hcandidate
    refine ⟨x, hcandidate, by rw [Table.lookup, hx], fun y hy => ?_⟩
    obtain ⟨hwidth, hlast⟩ := Binding.not_shadows_iff.1 (hinner y ((hmem y).2 hy))
    refine ⟨?_, fun heq => hlast (by rw [heq])⟩
    obtain ⟨hx, -, hreaches, -⟩ := hcandidate
    obtain ⟨hy, -, hreaches', -⟩ := hy
    rcases scopes_nested hfile hroom hx hy hreaches hreaches' with hin | hin
    · -- A scope that lies in another and is not narrower is the same.
      simp only [Span.contains_iff, Span.width] at hin hreaches' hwidth ⊢
      exact ⟨hin.1.symm, by omega, by omega⟩
    · exact hin
  · have hnil : (Table.ofFile file).bindings.filter (·.isVisible name place) = [] :=
      eq_nil_iff_forall_not_mem.2 fun x hx => hnone ⟨x, (hmem x).1 hx⟩
    rw [Table.lookup, hnil]
    rfl

/-- A parameter whose name is bound again in a block. -/
def rebound : String :=
  "func f(m map[int]int) \x7b\n\tif true \x7b\n\t\tm := 1\n\t\tg(m)\n\t\x7d\n\x7d\n"

theorem lookup_innermost_rebound :
    ∃ file x, ofSource {} 0 rebound = .ok file ∧ file.Candidate "m" ⟨0, 48, 49⟩ x ∧
      x.type.isMap = false ∧
      ∀ y, file.Candidate "m" ⟨0, 48, 49⟩ y → y.scope.contains x.scope = true := by
  have hrun : ((ofSource {} 0 rebound).toOption.filter fun file =>
      (Table.ofFile file).bindings.any (·.isVisible "m" ⟨0, 48, 49⟩) &&
        ((Table.ofFile file).lookup "m" ⟨0, 48, 49⟩).all fun type =>
          !type.isMap).isSome = true := by
    decide +kernel
  obtain ⟨file, hfile⟩ := Option.isSome_iff_exists.1 hrun
  obtain ⟨hfile, hfound⟩ := Option.filter_eq_some_iff.1 hfile
  have hfile := eq_ok_of_toOption hfile
  simp only [Bool.and_eq_true, any_eq_true, Binding.isVisible_iff] at hfound
  obtain ⟨hsome, hlookup⟩ := hfound
  obtain ⟨x, hx, htype, hinner⟩ := (lookup_innermost hfile (by decide) "m").2.1 hsome
  rw [htype] at hlookup
  exact ⟨file, x, hfile, hx, by simpa using hlookup, fun y hy => (hinner y hy).1⟩

end SourceFile

end ScriptLowering
