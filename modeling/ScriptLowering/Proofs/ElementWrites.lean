import Mathlib.Logic.Relation
import ScriptLowering.Proofs.Tracking

/-!
# Writes to elements

An assignment to an element of a container becomes a call of the container library that stores the
value, if the rules leave the element in place as a target: it is the only target, the first one of
a call whose first result stays a result, or the flag of a two-valued read. The target of any other
value is passed by address, and what is then read and passed is a copy.
-/

namespace ScriptLowering

namespace Lowering

/-! ## What is stored -/

/-- A read is taken out of operands at `place`, into a new variable. -/
def Env.TakesRead (env : Env) (place : Span) (es es' : List Expr) : Prop :=
  ∃ n x, extractList (env.isElement place) (env.options.discardName n) false es = some x ∧
    x.rest = es'

/-- Reads are taken out of operands at `place`, and the operands are lowered. -/
def Env.LowersOnce (env : Env) (place : Span) (es es' : List Expr) : Prop :=
  ∃ taken, Relation.ReflTransGen (env.TakesRead place) es taken ∧
    List.Forall₂ env.Lowers taken es'

/-- So it is at least once; what stands in a post statement may be lowered again. -/
def Env.LowersTo (env : Env) (place : Span) : List Expr → List Expr → Prop :=
  Relation.TransGen (env.LowersOnce place)

/-- The target of an assignment that the rules leave in place. -/
def Env.keptTarget? (env : Env) (x : Stmt) : Option Expr :=
  match x.form with
  | .assign [target] .assign [_] => some target
  | .assign (target :: targets) .assign [.call span callee args spread] =>
    if firstStays (env.callShape (.call span callee args spread) (targets.length + 1)) then
      some target
    else none
  | .assign [_, target] .assign [.index ..] => some target
  | _ => none

/-- The value that the statement assigns to its target in place: the right side itself, a call that
is given the other targets, or a read that says whether there is an element. -/
inductive Env.Assigns (env : Env) (x : Stmt) : Expr → Prop
  | value {target value} : x.form = .assign [target] .assign [value] → env.Assigns x value
  | call {targets span callee args spread targets'} :
    x.form = .assign targets .assign [.call span callee args spread] → 1 < targets.length →
    List.Forall₂ Named targets targets' →
    env.Assigns x (.call span callee (args ++
      (outPositions (env.callShape (.call span callee args spread) targets.length)).filterMap
        fun position => targets'[position]?.map Expr.address) spread)
  | read {first second span base key target} :
    x.form = .assign [first, second] .assign [.index span base key] → Named first target →
    env.Assigns x (env.readCall base key target x.span)

/-- The statement `y` stores the value that `x` assigns to its target in place, in the element
`base[key]`. -/
def Env.StoresElement (env : Env) (x : Stmt) (base key : Expr) (y : Stmt) : Prop :=
  y.id = x.id ∧ y.span = x.span ∧ ∃ value b k v, env.Assigns x value ∧
    env.LowersTo x.span [base, key, value] [b, k, v] ∧
    y.form = .expr (env.writeCall b k v x.span)

section Writes

variable {env : Env} {x z : Stmt} {span : Span} {base key : Expr} {r : Replacement}

/-- What the statement `x` may have become on the way, with one target left: an assignment of the
value to the element, or the call, with some reads taken out of its operands. -/
inductive Env.StoresSoon (env : Env) (x : Stmt) (span : Span) (base key : Expr) (z : Stmt) : Prop
  | single {value} : z.form = .assign [.index span base key] .assign [value] →
    env.Assigns x value → env.StoresSoon x span base key z
  | call {value b k v} : z.form = .expr (env.writeCall b k v x.span) → env.Assigns x value →
    (∀ es, env.LowersTo x.span [b, k, v] es → env.LowersTo x.span [base, key, value] es) →
    env.StoresSoon x span base key z

/-- Nothing may have happened yet either. -/
inductive Env.StoresLater (env : Env) (x : Stmt) (span : Span) (base key : Expr) (z : Stmt) : Prop
  | tuple {targets value} : z.form = x.form → x.form = .assign targets .assign [value] →
    1 < targets.length → env.keptTarget? x = some (.index span base key) →
    env.StoresLater x span base key z
  | soon : env.StoresSoon x span base key z → env.StoresLater x span base key z

theorem storesLater_self (hkept : env.keptTarget? x = some (.index span base key)) :
    env.StoresLater x span base key x := by
  have hkept' := hkept
  unfold Env.keptTarget? at hkept
  split at hkept
  · rename_i hform
    cases hkept
    exact .soon (.single hform (.value hform))
  · rename_i target targets _ _ _ _ hone hform
    refine .tuple rfl hform ?_ hkept'
    have hne : targets ≠ [] := by
      rintro rfl
      exact hone rfl
    have hpos := List.length_pos_iff.2 hne
    simpa using hpos
  · rename_i hform
    exact .tuple rfl hform (by simp) hkept'
  · contradiction

theorem Env.LowersTo.take {place es es' es''} (htake : env.TakesRead place es es')
    (h : env.LowersTo place es' es'') : env.LowersTo place es es'' := by
  induction h with
  | single h =>
    obtain ⟨taken, htaken, hlowers⟩ := h
    exact .single ⟨taken, .head htake htaken, hlowers⟩
  | tail _ h ih => exact ih.tail h

/-- A read that moves out of the call moves out of its operands. -/
theorem takesRead_of_extract {n place b k v found}
    (h : extract (env.isElement place) (env.options.discardName n) false
      (env.writeCall b k v place) = some found) :
    ∃ b' k' v', found.rest = env.writeCall b' k' v' place ∧
      env.TakesRead place [b, k, v] [b', k', v'] := by
  unfold Env.writeCall Expr.callOf extract at h
  rw [if_neg (by simp [isElement_eq_false])] at h
  rcases around_orElse h with ⟨y, hy, rfl⟩ | ⟨y, hy, rfl⟩
  · unfold extract at hy
    simp [isElement_eq_false] at hy
  · have hlen := extractList_length hy
    obtain ⟨b', k', v', hrest⟩ := List.length_eq_three.1 hlen
    exact ⟨b', k', v', by simp [Extraction.map, hrest, Env.writeCall, Expr.callOf], n, y, hy, hrest⟩

/-- A tuple assignment with a target in place: the first one of a call, or the flag of a read. -/
theorem keptTarget?_tuple {targets value target} (hform : z.form = .assign targets .assign [value])
    (htwo : 1 < targets.length) (hkept : env.keptTarget? z = some target) :
    (∃ span callee args spread, value = .call span callee args spread ∧
      targets.head? = some target ∧ firstStays (env.callShape value targets.length) = true) ∨
    ∃ first span base key, value = .index span base key ∧ targets = [first, target] := by
  unfold Env.keptTarget? at hkept
  split at hkept
  · rename_i hform'
    rw [hform] at hform'
    obtain ⟨rfl, -⟩ := StmtForm.assign.inj hform'
    simp at htwo
  · rename_i hform'
    rw [hform] at hform'
    obtain ⟨rfl, -, hvalue⟩ := StmtForm.assign.inj hform'
    obtain rfl := List.singleton_inj.1 hvalue
    split at hkept
    · rename_i hstays
      cases hkept
      exact .inl ⟨_, _, _, _, rfl, rfl, hstays⟩
    · contradiction
  · rename_i hform'
    rw [hform] at hform'
    obtain ⟨rfl, -, hvalue⟩ := StmtForm.assign.inj hform'
    obtain rfl := List.singleton_inj.1 hvalue
    cases hkept
    exact .inr ⟨_, _, _, _, rfl, rfl⟩
  · contradiction

theorem Named.eq_index {target} (h : Named (.index span base key) target) :
    target = .index span base key := by
  rcases h with rfl | ⟨hblank, -⟩
  · rfl
  · simp [Expr.isBlank, Expr.name?] at hblank

/-- Only the rule for tuples applies to an assignment of several values of a call, and only the rule
for reads to one of an element and a flag. Both leave the target in place. -/
theorem Rewrites.of_tuple {targets value} (h : Rewrites env z r)
    (hform : z.form = .assign targets .assign [value]) (htwo : 1 < targets.length)
    (hkept : env.keptTarget? z = some (.index span base key)) :
    ∃ value', r.form = .assign [.index span base key] .assign [value'] ∧ env.Assigns z value' := by
  have hcases := keptTarget?_tuple hform htwo hkept
  cases h with
  | write hform' =>
    rw [hform] at hform'
    obtain ⟨rfl, -⟩ := StmtForm.assign.inj hform'
    simp at htwo
  | @read _ _ _ _ _ _ _ second? hform' _ _ hnamed =>
    rw [hform] at hform'
    obtain ⟨rfl, rfl, hvalue⟩ := StmtForm.assign.inj hform'
    obtain rfl := List.singleton_inj.1 hvalue
    rcases hcases with ⟨_, _, _, _, hcall, -⟩ | ⟨first', _, _, _, -, htargets⟩
    · simp at hcall
    · cases second? with
      | none => simp at htwo
      | some second =>
        simp only [Option.toList_some, List.cons.injEq, and_true] at htargets
        obtain ⟨-, rfl⟩ := htargets
        refine ⟨_, ?_, .read hform hnamed⟩
        simp [Env.readForm, Option.filter_some, Expr.isBlank, Expr.name?]
  | define hform' =>
    rw [hform] at hform'
    simp at hform'
  | complete hform' _ hnamed =>
    rw [hform] at hform'
    obtain ⟨rfl, -, hvalue⟩ := StmtForm.assign.inj hform'
    obtain rfl := List.singleton_inj.1 hvalue
    rcases hcases with ⟨_, _, _, _, -, hhead, hstays⟩ | ⟨_, _, _, _, hindex, -⟩
    · cases hnamed with
      | nil => simp at hhead
      | cons hfirst hrest =>
        obtain rfl := Option.some.inj hhead
        obtain rfl := hfirst.eq_index
        refine ⟨_, ?_, .call hform htwo (.cons (.refl _) hrest)⟩
        dsimp only [completedForm]
        rw [if_pos hstays]
        simp [Option.filter_some, Expr.isBlank, Expr.name?]
    · simp at hindex
  | update hupdate =>
    unfold elementUpdate? at hupdate
    rw [hform] at hupdate
    split at hupdate
    · rename_i hform'
      simp at hform'
    · rename_i hform'
      obtain ⟨rfl, -⟩ := StmtForm.assign.inj hform'
      simp at htwo
    · contradiction
  | hoist _ _ _ hreduced =>
    rcases hcases with ⟨_, _, _, _, rfl, -⟩ | ⟨_, _, _, _, rfl, rfl⟩
    · have hlen := hreduced.complete _ _ _ _ _ hform
      omega
    · exact absurd rfl (hreduced.read _ _ _ _ _ hform rfl)

/-- Only the rule for writes applies to an assignment to one element. -/
theorem Rewrites.of_single {value} (h : Rewrites env z r)
    (hform : z.form = .assign [.index span base key] .assign [value])
    (helement : env.isElement z.span (.index span base key) = true) :
    r.form = .expr (env.writeCall base key value z.span) := by
  have hwrite : writeElement env z ≠ none := by
    unfold writeElement
    rw [hform]
    simp [helement]
  cases h with
  | write hform' =>
    rw [hform] at hform'
    simp at hform'
    obtain ⟨⟨-, rfl, rfl⟩, rfl⟩ := hform'
    rfl
  | read _ _ _ _ _ _ hnone => exact absurd hnone hwrite
  | define hform' =>
    rw [hform] at hform'
    simp at hform'
  | complete hform' hlen =>
    rw [hform] at hform'
    obtain ⟨rfl, -⟩ := StmtForm.assign.inj hform'
    simp at hlen
  | update hupdate =>
    unfold elementUpdate? at hupdate
    simp [hform, AssignOp.combines?] at hupdate
  | hoist _ _ _ hreduced => exact absurd hreduced.write hwrite

theorem Env.Assigns.congr {value} (h : env.Assigns z value) (hform : z.form = x.form)
    (hspan : z.span = x.span) : env.Assigns x value := by
  cases h with
  | value h => exact .value (hform ▸ h)
  | call h htwo hnamed => exact .call (hform ▸ h) htwo hnamed
  | read h hnamed =>
    rw [hspan]
    exact .read (hform ▸ h) hnamed

theorem keptTarget?_congr (hform : z.form = x.form) : env.keptTarget? z = env.keptTarget? x := by
  unfold Env.keptTarget?
  rw [hform]

theorem storesLater_rewrite (h : env.StoresLater x span base key z) (hspan : z.span = x.span)
    (helement : env.isElement x.span (.index span base key) = true) (hrewrites : Rewrites env z r) :
    env.StoresSoon x span base key ⟨z.id, z.span, r.form⟩ := by
  cases h with
  | tuple hz hform htwo hkept =>
    obtain ⟨value, hnew, hassigns⟩ := hrewrites.of_tuple (hz.trans hform) htwo
      ((keptTarget?_congr hz).trans hkept)
    exact .single hnew (hassigns.congr hz hspan)
  | soon h =>
    cases h with
    | single hform hassigns =>
      have hnew := hrewrites.of_single hform (hspan ▸ helement)
      exact .call (hnew.trans (by rw [hspan])) hassigns fun _ h => h
    | call hform hassigns hlowers =>
      cases hrewrites with
      | write hform' | read hform' | define hform' | complete hform' =>
        rw [hform] at hform'
        simp at hform'
      | update hupdate =>
        unfold elementUpdate? at hupdate
        simp [hform] at hupdate
      | hoist hextracts =>
        rw [hform] at hextracts
        generalize hcall : StmtForm.expr _ = form at hextracts
        cases hextracts with
        | expr hextract =>
          obtain rfl := StmtForm.expr.inj hcall
          rw [hspan] at hextract
          obtain ⟨b', k', v', hrest, htakes⟩ := takesRead_of_extract hextract
          refine .call ?_ hassigns fun es hes => hlowers es (hes.take htakes)
          rw [← hrest]
          rfl
        | _ => simp at hcall

/-- The call is entered, its operands are lowered. -/
theorem Env.Entered.writeCall {y b k v place} (h : env.Entered z y)
    (hform : z.form = .expr (env.writeCall b k v place)) :
    ∃ b' k' v', y.form = .expr (env.writeCall b' k' v' place) ∧
      List.Forall₂ env.Lowers [b, k, v] [b', k', v'] := by
  obtain ⟨_, hy, fuel, t, t', he⟩ := h.expr hform
  unfold Env.writeCall Expr.callOf lowerExpr at he
  obtain ⟨callee, t1, hcallee, he⟩ := bind_eq_ok he
  obtain ⟨args, t2, hargs, he⟩ := bind_eq_ok he
  cases he
  unfold lowerExpr at hcallee
  cases hcallee
  have hall := lowerExprs_forall₂ hargs
  obtain ⟨b', k', v', rfl⟩ := List.length_eq_three.1 hall.length_eq.symm
  refine ⟨b', k', v', hy, hall.imp ?_⟩
  rintro e e' ⟨u, u', he⟩
  exact ⟨fuel, u, u', he⟩

/-- An element that is known to be one where it stands cannot be entered as a target. -/
theorem Env.Entered.element_target {y value} (h : env.Entered z y)
    (hform : z.form = .assign [.index span base key] .assign [value])
    (helement : env.isElement span (.index span base key) = true) : False := by
  obtain ⟨-, -, fuel, t, t', hplain⟩ := h
  rw [hform] at hplain
  generalize y.form = form at hplain
  cases hplain with
  | assign _ htargets =>
    unfold lowerExprs at htargets
    obtain ⟨e, t1, he, -⟩ := bind_eq_ok htargets
    have hread : env.resolver.isContainerRead span (.index span base key) = true := helement
    unfold lowerExpr at he
    rw [if_pos hread] at he
    obtain ⟨_, _, hfail, -⟩ := bind_eq_ok he
    cases hfail

theorem Env.StoresSoon.entered {y} (h : env.StoresSoon x span base key z) (hid : z.id = x.id)
    (hspan : z.span = x.span) (hentered : env.Entered z y)
    (hsingle : ∀ value, z.form ≠ .assign [.index span base key] .assign [value]) :
    env.StoresElement x base key y := by
  cases h with
  | single hform => exact absurd hform (hsingle _)
  | call hform hassigns hlowers =>
    obtain ⟨b', k', v', hform', hall⟩ := hentered.writeCall hform
    exact ⟨hentered.1.trans hid, hentered.2.1.trans hspan, _, b', k', v', hassigns,
      hlowers _ (.single ⟨_, .refl, hall⟩), hform'⟩

theorem Env.StoresElement.soon {y} (h : env.StoresElement x base key y) :
    y.id = x.id ∧ y.span = x.span ∧ env.StoresLater x span base key y := by
  obtain ⟨hid, hspan, value, b, k, v, hassigns, hlowers, hform⟩ := h
  exact ⟨hid, hspan, .soon (.call hform hassigns fun es hes => Relation.TransGen.trans hlowers hes)⟩

/-- A statement on its way to a stored element survives the rules. -/
theorem tracks_storesLater (helement : env.isElement x.span (.index span base key) = true)
    (hown : env.isElement span (.index span base key) = true) :
    env.Tracks (fun _ z => z.id = x.id ∧ z.span = x.span ∧ env.StoresLater x span base key z)
      (fun _ y => env.StoresElement x base key y) where
  flat := by
    rintro _ z ⟨-, -, ⟨hz, hform, -, -⟩ | ⟨⟨hform, -⟩ | ⟨hform, -, -⟩⟩⟩
    · simp [Stmt.isFlat, hz, hform]
    · simp [Stmt.isFlat, hform]
    · simp [Stmt.isFlat, hform]
  moves h := h
  again h := h.soon
  back _ h := h.soon
  noDecl := by
    rintro _ y ⟨-, -, value, b, k, v, -, -, hform⟩
    simp [isDeclaration, hform]
  rewrite := by
    rintro z r ⟨hid, hspan, h⟩ hrewrites
    exact ⟨hid, hspan, .soon (storesLater_rewrite h hspan helement hrewrites)⟩
  split := by
    rintro z _ _ _ _ _ _ ⟨-, -, ⟨hz, hform, -, -⟩ | ⟨⟨hform, -⟩ | ⟨hform, -, -⟩⟩⟩ hdecl
    · simp [hz, hform] at hdecl
    · simp [hform] at hdecl
    · simp [hform] at hdecl
  enter := by
    rintro _ z y ⟨hid, hspan, h⟩ hidle hentered
    cases h with
    | tuple hz hform htwo hkept =>
      rcases keptTarget?_tuple (hz.trans hform) htwo ((keptTarget?_congr hz).trans hkept) with
        ⟨_, _, _, _, rfl, -⟩ | ⟨_, _, _, _, rfl, rfl⟩
      · have hlen := hidle.complete _ _ _ _ _ (hz.trans hform)
        omega
      · exact absurd rfl (hidle.read _ _ _ _ _ (hz.trans hform) rfl)
    | soon h =>
      refine h.entered hid hspan hentered fun value hform => ?_
      have hwrite := hidle.write
      simp [writeElement, hform, hspan, helement] at hwrite
  inPlace := by
    rintro z y form ⟨hid, hspan, h⟩ hrewrites hentered
    refine (storesLater_rewrite h hspan helement hrewrites).entered hid hspan hentered ?_
    exact fun value hform => hentered.element_target hform hown

end Writes

end Lowering

open Lowering

/-- A write to an element that the rules leave in place as a target is not lost: wherever the
assignment stands in a source that is lowered, the lowered file holds a call with its identity that
stores in the element the value the assignment gives it. -/
theorem SourceFile.element_write_kept {scan : Token.ScanOptions} {index : Nat} {source : String}
    {file : SourceFile} (hfile : ofSource scan index source = .ok file) {fuel : Nat}
    {resolver : Resolver} {options : Options} {lowered : Lowered}
    (h : file.lowerWith fuel resolver options = .ok lowered) {x : Stmt} (hx : file.Holds x)
    {span : Span} {base key : Expr}
    (hkept : Env.keptTarget? ⟨resolver, options, shapesOf file⟩ x = some (.index span base key))
    (helement : resolver.isContainerRead x.span (.index span base key) = true)
    (hown : resolver.isContainerRead span (.index span base key) = true) :
    ∃ y, lowered.file.Holds y ∧
      Env.StoresElement ⟨resolver, options, shapesOf file⟩ x base key y := by
  have hbranch : x.isBranch = false := by
    cases hform : x.form with
    | cond | block => simp [Env.keptTarget?, hform] at hkept
    | _ => simp [Stmt.isBranch, hform]
  have hlater : file.Contains fun _ z => z.id = x.id ∧ z.span = x.span ∧
      Env.StoresLater ⟨resolver, options, shapesOf file⟩ x span base key z := by
    refine (hx.contained hfile hbranch).mono ?_
    rintro _ _ rfl
    exact ⟨rfl, rfl, storesLater_self hkept⟩
  obtain ⟨y, -, hy, hstores⟩ := (hlater.lowered (tracks_storesLater helement hown) h).holds
  exact ⟨y, hy, hstores⟩

/-- A file with a function of two results and a function with the given body. -/
def withPair (body : String) : String :=
  "package p\n\nfunc f() (int, int) \x7b\n\treturn 1, 2\n\x7d\n\n" ++
    "func g(m map[int]int) \x7b\n\tvar a int\n\t" ++ body ++ "\n\x7d\n"

/-- The element that an assignment keeps in place as a target, where it is known to be one at the
statement and where it stands. -/
def Lowering.Env.keptElement? (env : Env) (x : Stmt) : Option (Span × Expr × Expr) :=
  match env.keptTarget? x with
  | some (.index span base key) =>
    if env.isElement x.span (.index span base key) && env.isElement span (.index span base key) then
      some (span, base, key)
    else none
  | _ => none

theorem keptElement?_eq_some {env : Env} {x span base key}
    (h : env.keptElement? x = some (span, base, key)) :
    env.keptTarget? x = some (.index span base key) ∧
      env.isElement x.span (.index span base key) = true ∧
      env.isElement span (.index span base key) = true := by
  unfold Env.keptElement? at h
  split at h
  · rename_i hkept
    split at h
    · rename_i helement
      cases h
      exact ⟨hkept, by simpa using helement⟩
    · contradiction
  · contradiction

/-- The first result of `f` goes to an element, and stays a result. -/
theorem element_write_kept_first :
    ∃ file lowered x span base key y,
      SourceFile.ofSource {} 0 (withPair "m[1], a = f()") = .ok file ∧
      file.lower (Table.ofFile file).resolver {} = .ok lowered ∧ file.Holds x ∧
      Env.keptElement? ⟨(Table.ofFile file).resolver, {}, shapesOf file⟩ x =
        some (span, base, key) ∧
      lowered.file.Holds y ∧
      Env.StoresElement ⟨(Table.ofFile file).resolver, {}, shapesOf file⟩ x base key y := by
  have hrun : ((parsedStmt? (withPair "m[1], a = f()") [1]).bind fun p =>
      (p.1.lower (Table.ofFile p.1).resolver {}).toOption.bind fun lowered =>
        (Env.keptElement? ⟨(Table.ofFile p.1).resolver, {}, shapesOf p.1⟩ p.2).map
          fun q => (lowered, q)).isSome := by
    decide +kernel
  obtain ⟨⟨lowered, span, base, key⟩, hrun⟩ := Option.isSome_iff_exists.1 hrun
  obtain ⟨⟨file, x⟩, hparsed, hrun⟩ := Option.bind_eq_some_iff.1 hrun
  obtain ⟨lowered', hlowered, hrun⟩ := Option.bind_eq_some_iff.1 hrun
  obtain ⟨q, hkept, hpair⟩ := Option.map_eq_some_iff.1 hrun
  cases hpair
  obtain ⟨hfile, hholds⟩ := holds_of_parsedStmt? hparsed
  have hlowered := eq_ok_of_toOption hlowered
  obtain ⟨htarget, helement, hown⟩ := keptElement?_eq_some hkept
  obtain ⟨y, hy, hstores⟩ :=
    SourceFile.element_write_kept hfile hlowered hholds htarget helement hown
  exact ⟨file, lowered, x, span, base, key, y, hfile, hlowered, hholds, hkept, hy, hstores⟩

/-- The statement calls the function that stores elements. -/
def isWriteCall (options : Options) (x : Stmt) : Bool :=
  match x.form with
  | .expr (.call _ (.ident _ name) _ _) => name == options.containerSet
  | _ => false

/-- The number of elements that are targets of `=` in a file. -/
def SourceFile.elementTargets (file : SourceFile) (resolver : Resolver) : Nat :=
  ((file.decls.flatMap Decl.stmts).flatMap fun x => match x.form with
    | .assign targets .assign _ => targets.filter (resolver.isContainerRead x.span)
    | _ => []).length

/-- The number of elements that are targets in a source, and of calls in the lowered file that store
elements. -/
def writeCounts (source : String) : Option (Nat × Nat) := do
  let file ← (SourceFile.ofSource {} 0 source).toOption
  let lowered ← (file.lower (Table.ofFile file).resolver {}).toOption
  return (file.elementTargets (Table.ofFile file).resolver,
    ((lowered.file.decls.flatMap Decl.stmts).filter (isWriteCall {})).length)

/-- The second result of `f` goes to an element, and nothing is stored there. -/
theorem element_write_lost_second : writeCounts (withPair "a, m[1] = f()") = some (1, 0) := by
  decide +kernel

end ScriptLowering
