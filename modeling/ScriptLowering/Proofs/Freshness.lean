import Mathlib.Data.List.Count
import Mathlib.Data.List.Perm.Subperm
import ScriptLowering.Proofs.Signatures
import ScriptLowering.Proofs.Variables

/-!
# Fresh names

A lowering introduces variables of two kinds. A result that moves becomes an output parameter named
after its entry, and a value that has no place of its own goes into a temporary, whose name is the
prefix of the options and a number. Neither name is compared with those of the source: it is free
when nothing in the source is spelled like it. Output parameters differ from each other, and so do
temporaries, whose numbers are given out once.
-/

namespace ScriptLowering

open List

variable {options : Options} {high low : Nat} {s s' : State}

/-! ## Identifiers -/

mutual

/-- The identifiers that occur in an expression, at any depth. -/
def Expr.identifiers : Expr → List String
  | .ident _ name => [name]
  | .lit .. => []
  | .composite _ type elems => identifiersOfType? type ++ identifiersOfExprs elems
  | .funcLit _ params results ⟨stmts, _⟩ =>
    identifiersOfFields params ++ identifiersOfFields results ++ identifiersOfStmts stmts
  | .keyValue _ left right | .index _ left right | .binary _ _ left right =>
    left.identifiers ++ right.identifiers
  | .paren _ inner | .unary _ _ inner => inner.identifiers
  | .selector _ base member => base.identifiers ++ [member.val]
  | .slice _ base low high max =>
    base.identifiers ++ identifiersOfExpr? low ++ identifiersOfExpr? high ++ identifiersOfExpr? max
  | .typeAssert _ base type => base.identifiers ++ identifiersOfType? type
  | .call _ callee args _ => callee.identifiers ++ identifiersOfExprs args
  | .type _ type => type.identifiers

def identifiersOfExpr? : Option Expr → List String
  | none => []
  | some e => e.identifiers

def identifiersOfExprs : List Expr → List String
  | [] => []
  | e :: es => e.identifiers ++ identifiersOfExprs es

def TypeExpr.identifiers : TypeExpr → List String
  | .named name => [name]
  | .qualified package name => [package, name]
  | .pointer elem | .chan _ elem | .variadic elem => elem.identifiers
  | .array length elem => identifiersOfExpr? length ++ elem.identifiers
  | .map key elem => key.identifiers ++ elem.identifiers
  | .func params results => identifiersOfFields params ++ identifiersOfFields results
  | .struct fields | .interface fields => identifiersOfFields fields

def identifiersOfType? : Option TypeExpr → List String
  | none => []
  | some type => type.identifiers

def identifiersOfFields : List Field → List String
  | [] => []
  | ⟨names, ⟨type, _⟩⟩ :: fields =>
    names.map (·.val) ++ type.identifiers ++ identifiersOfFields fields

/-- The identifiers that occur in a statement, labels among them. -/
def StmtForm.identifiers : StmtForm → List String
  | .decl ⟨_, specs, _⟩ => identifiersOfSpecs specs
  | .empty => []
  | .labeled label ⟨_, _, form⟩ => label.val :: form.identifiers
  | .expr e | .incDec e _ | .go e | .defer e => e.identifiers
  | .send chan value => chan.identifiers ++ value.identifiers
  | .assign targets _ values => identifiersOfExprs targets ++ identifiersOfExprs values
  | .ret values => identifiersOfExprs values
  | .jump _ label => label.toList.map (·.val)
  | .block ⟨stmts, _⟩ => identifiersOfStmts stmts
  | .cond init test ⟨stmts, _⟩ otherwise =>
    identifiersOfStmt? init ++ test.identifiers ++ identifiersOfStmts stmts ++
      identifiersOfStmt? otherwise
  | .switch init tag clauses =>
    identifiersOfStmt? init ++ identifiersOfExpr? tag ++ identifiersOfCases clauses
  | .typeSwitch init ⟨_, _, guard⟩ clauses =>
    identifiersOfStmt? init ++ guard.identifiers ++ identifiersOfCases clauses
  | .select clauses => identifiersOfComms clauses
  | .loop init test post ⟨stmts, _⟩ =>
    identifiersOfStmt? init ++ identifiersOfExpr? test ++ identifiersOfStmt? post ++
      identifiersOfStmts stmts
  | .range key value _ subject ⟨stmts, _⟩ =>
    identifiersOfExpr? key ++ identifiersOfExpr? value ++ subject.identifiers ++
      identifiersOfStmts stmts

def identifiersOfStmt? : Option Stmt → List String
  | none => []
  | some ⟨_, _, form⟩ => form.identifiers

def identifiersOfStmts : List Stmt → List String
  | [] => []
  | ⟨_, _, form⟩ :: stmts => form.identifiers ++ identifiersOfStmts stmts

def identifiersOfCases : List CaseClause → List String
  | [] => []
  | ⟨none, body, _⟩ :: clauses => identifiersOfStmts body ++ identifiersOfCases clauses
  | ⟨some exprs, body, _⟩ :: clauses =>
    identifiersOfExprs exprs ++ identifiersOfStmts body ++ identifiersOfCases clauses

def identifiersOfComms : List CommClause → List String
  | [] => []
  | ⟨comm, body, _⟩ :: clauses =>
    identifiersOfStmt? comm ++ identifiersOfStmts body ++ identifiersOfComms clauses

def identifiersOfSpecs : List Spec → List String
  | [] => []
  | .value names none values :: specs =>
    names.map (·.val) ++ identifiersOfExprs values ++ identifiersOfSpecs specs
  | .value names (some ⟨type, _⟩) values :: specs =>
    names.map (·.val) ++ type.identifiers ++ identifiersOfExprs values ++ identifiersOfSpecs specs
  | .typeName name _ ⟨type, _⟩ :: specs =>
    name.val :: type.identifiers ++ identifiersOfSpecs specs

end

namespace Decl

open Lowering

/-- The identifiers that occur in a declaration. -/
def identifiers : Decl → List String
  | .func ⟨receiver, name, params, results, body, _⟩ =>
    name.val :: identifiersOfFields (receiver.getD []) ++ identifiersOfFields params ++
      identifiersOfFields results ++ identifiersOfStmts ((body.map Block.stmts).getD [])
  | .gen decl => identifiersOfSpecs decl.specs

/-- The variables of a declaration: those of its head and those that statements in it declare, at
any depth. A function literal keeps its head, which is left out. -/
def vars : Decl → List String
  | .func decl => Field.boundNames (givenParams decl ++ decl.results) ++ namesOf (all (.func decl))
  | .gen decl => decl.specs.flatMap Spec.names ++ namesOf (all (.gen decl))

/-- The names of the output parameters that a declaration gets. -/
def outNames : Decl → List String
  | .func decl => Field.boundNames (outParams decl)
  | .gen _ => []

/-- The variables of `decl'` that `decl` does not have, each as often as it is declared anew. -/
def introduced (decl decl' : Decl) : List String := decl'.vars.diff decl.vars

theorem outNames_nodup (decl : Decl) : decl.outNames.Nodup := by
  cases decl with
  | func decl => exact (trailing_outParams decl).nodup
  | gen decl => exact .nil

end Decl

namespace Lowering

/-! ## Whole declarations -/

section Declarations

/-- A result stays one, or its names become variables of the body. -/
theorem boundNames_results_perm (func : FuncDecl) :
    (Field.boundNames func.results).Perm
      (Field.boundNames (lowerHead func).func.results ++ (lowerHead func).locals.map Prod.fst) := by
  let entry := (entries (shapeOf func.results)).zip func.results
  let names := fun x : Entry × Field => x.2.names.map (·.val)
  have hresults : entry.map Prod.snd = func.results := by
    refine map_snd_zip (Nat.le_of_eq ?_)
    rw [entries, length_entriesFrom, shapeOf, length_map]
  have hall : Field.boundNames func.results = entry.flatMap names := by
    conv_lhs => rw [← hresults]
    exact flatMap_map ..
  have hkept : Field.boundNames (lowerHead func).func.results =
      (entry.filter fun x => !x.1.moves).flatMap names := flatMap_map ..
  have hmoved : (lowerHead func).locals.map Prod.fst =
      (entry.filter fun x => x.1.moves).flatMap names := by
    simp only [lowerHead, map_flatMap, map_map]
    rfl
  rw [hall, hkept, hmoved, ← flatMap_append]
  refine Perm.flatMap_right names ?_
  exact ((filter_append_perm _ entry).symm.trans perm_append_comm)

theorem vars_lowerHead (func : FuncDecl) (body : Option Block) :
    Decl.vars (.func { (lowerHead func).func with body }) =
      Field.boundNames (givenParams func ++ outParams func ++ (lowerHead func).func.results) ++
        namesOf (allOfStmts ((body.map Block.stmts).getD [])) := rfl

/-- The variables of a lowered function are those of the function and the output parameters, when
the names of the results that moved are declared in front of its body. -/
theorem accounts_lowerHead {func} (body : Option Block) (h : Accounts options
      ((lowerHead func).locals.map Prod.fst ++ namesOf (Decl.all (.func func)))
      (namesOf (allOfStmts ((body.map Block.stmts).getD []))) low high) :
    Accounts options (Decl.vars (.func func) ++ Decl.outNames (.func func))
      (Decl.vars (.func { (lowerHead func).func with body })) low high where
  grows := h.grows
  count name := by
    have hbody := h.count name
    have hresults := (boundNames_results_perm func).count_eq name
    rw [vars_lowerHead]
    simp only [Decl.vars, Decl.outNames, Field.boundNames, flatMap_append, count_append]
      at hbody hresults ⊢
    omega

theorem Introduces.all {place vars locals} (h : Introduces vars s locals s')
    (hlocals : ∀ x ∈ locals, Declares place x) :
    namesOf (allOfStmts locals) = vars.map Prod.fst := by
  rw [← h.names]
  have hall : allOfStmts locals = locals := by
    clear h
    induction locals with
    | nil => rfl
    | cons x locals ih =>
      obtain ⟨⟨-, declared, hform⟩, hrest⟩ := forall_mem_cons.1 hlocals
      obtain ⟨id, span, form⟩ := x
      obtain rfl : form = _ := hform
      have hnone : (StmtForm.decl (varDecl declared place)).all = [] :=
        (allOfSpecs_eq _).trans (congrArg allOfBodies (bodies_varDecl declared place))
      rw [allOfStmts, Stmt.all, hnone, ih hrest]
      rfl
  rw [hall]

theorem WalksDecl.accounts {env decl decl'} (h : WalksDecl env decl decl' s s')
    (henv : env.Positive) :
    Accounts env.options (decl.vars ++ decl.outNames) decl'.vars s.discards s'.discards := by
  cases h with
  | @head func _ hbody =>
    refine accounts_lowerHead (lowerHead func).func.body ?_
    have hnone : (lowerHead func).func.body = none := hbody
    rw [hnone]
    exact .nil _ _
  | func hbody hlocals hintroduces hwalks =>
    have hrun := hwalks.accounts henv fun p hp => ascending_of_lowerHead hp
    simp only [Task.input, Task.output, allOfStmts_append, namesOf_append,
      hintroduces.all hlocals, hintroduces.discards] at hrun
    refine accounts_lowerHead _ ?_
    rw [Decl.all, hbody]
    exact hrun
  | gen hwalks hspecs =>
    have hrun := hwalks.accounts henv Task.unplanned
    simp only [Task.input, Task.output, ← allOfSpecs_eq] at hrun
    rw [Decl.outNames, append_nil, Decl.vars, Decl.vars, lowerSpecs_names hspecs]
    exact Accounts.append (.refl _ _) hrun

theorem WalksDecls.accounts {env decls decls'} (h : WalksDecls env decls decls' s s')
    (henv : env.Positive) : Forall₂ (fun decl decl' => ∃ low high,
      Accounts env.options (decl.vars ++ decl.outNames) decl'.vars low high) decls decls' := by
  induction h with
  | nil => exact .nil
  | cons hdecl _ ih => exact .cons ⟨_, _, hdecl.accounts henv⟩ ih

end Declarations

section Names

variable {options : Options}

/-- Temporaries have different names. -/
theorem temporaries_nodup (options : Options) (low high : Nat) :
    (options.temporaries low high).Nodup :=
  (nodup_range' ..).map fun _ _ => options.discardName_injective

theorem exists_of_mem_temporaries {name} (h : name ∈ options.temporaries low high) :
    ∃ n, name = options.discardName n := by
  obtain ⟨n, -, rfl⟩ := mem_map.1 h
  exact ⟨n, rfl⟩

/-- A name that does not begin with the prefix is no name of a temporary. -/
theorem ne_discardName (options : Options) {name}
    (h : options.discardPrefix.toList.isPrefixOf name.toList = false) (n : Nat) :
    name ≠ options.discardName n := by
  rintro rfl
  rw [toList_discardName, isPrefixOf_iff_prefix.2 (prefix_append ..)] at h
  contradiction

end Names

/-- What is introduced is accounted for by output parameters and temporaries. -/
theorem Accounts.introduced {decl decl' : Decl}
    (h : Accounts options (decl.vars ++ decl.outNames) decl'.vars low high) :
    (decl.introduced decl').Subperm (decl.outNames ++ options.temporaries low high) := by
  rw [subperm_ext_iff]
  intro name _
  have hname := h.count name
  rw [count_append] at hname
  rw [Decl.introduced, count_diff, count_append]
  omega

end Lowering

open Lowering

/-- The name is spelled like one that the lowering of the declaration can introduce. -/
def Lowering.Options.Synthesizes (options : Options) (decl : Decl) (name : String) : Prop :=
  name ∈ decl.outNames ∨ ∃ n, name = options.discardName n

/-- The variables that a lowering introduces into a declaration are output parameters of it and
temporaries, each at most once. They differ from each other unless a temporary can be named like an
output parameter, and from all identifiers of the declaration unless one of those is spelled like a
name that can be introduced. -/
theorem SourceFile.introduced_fresh {file : SourceFile} {resolver : Resolver} {options : Options}
    {lowered : Lowered} (h : file.lower resolver options = .ok lowered) :
    Forall₂ (fun decl decl' =>
      (∃ low high,
        (decl.introduced decl').Subperm (decl.outNames ++ options.temporaries low high) ∧
          decl.outNames.Nodup ∧ (options.temporaries low high).Nodup) ∧
      ((∀ n, options.discardName n ∉ decl.outNames) → (decl.introduced decl').Nodup) ∧
      ((∀ name ∈ decl.identifiers, ¬ options.Synthesizes decl name) →
        ∀ name ∈ decl.introduced decl', name ∉ decl.identifiers))
      file.decls lowered.file.decls := by
  obtain ⟨s', hwalks, -⟩ := lowerWith_walks h
  refine (hwalks.accounts (positive_shapesOf file resolver options)).imp ?_
  rintro decl decl' ⟨low, high, haccounts⟩
  have hintroduced := haccounts.introduced
  have houts := decl.outNames_nodup
  have htemporaries := temporaries_nodup options low high
  refine ⟨⟨low, high, hintroduced, houts, htemporaries⟩, fun hapart => ?_,
    fun hunused name hname hidentifier => ?_⟩
  · obtain ⟨names, hperm, hsublist⟩ := hintroduced
    refine hperm.nodup_iff.1 (hsublist.nodup (nodup_append.2 ⟨houts, htemporaries, ?_⟩))
    rintro name hout _ htemporary rfl
    obtain ⟨n, rfl⟩ := exists_of_mem_temporaries htemporary
    exact hapart n hout
  · refine hunused name hidentifier ?_
    rcases mem_append.1 (hintroduced.subset hname) with hout | htemporary
    · exact .inl hout
    · exact .inr (exists_of_mem_temporaries htemporary)

/-- The last declaration of a source, and what it is lowered to. -/
def lastLowered? (options : Options) (source : String) : Option (Decl × Decl) := do
  let file ← (SourceFile.ofSource {} 0 source).toOption
  let lowered ← (file.lower (Table.ofFile file).resolver options).toOption
  return (← file.decls.getLast?, ← lowered.file.decls.getLast?)

/-- A parameter is spelled like a temporary. -/
def spelledAlike : String :=
  "package p\n\nfunc f() (int, int) \x7b\n\treturn 1, 2\n\x7d\n\n" ++
    "func g(_unused0 int) int \x7b\n\ta, _ := f()\n\treturn a + _unused0\n\x7d\n"

/-- Two elements are updated in a function with an output parameter. -/
def updatesTwo : String :=
  "package p\n\nfunc f(m map[int]int) (int, bool) \x7b\n\tm[1]++\n\tm[2]++\n" ++
    "\treturn 1, true\n\x7d\n"

theorem introduced_clashes :
    ((lastLowered? {} spelledAlike).map fun p =>
      (p.1.introduced p.2, p.1.identifiers.contains "_unused0")) = some (["_unused0"], true) ∧
    ((lastLowered? { discardPrefix := "_" } updatesTwo).map fun p => p.1.introduced p.2) =
      some ["_1", "_0", "_1"] := by
  decide +kernel

/-- A named result that moves, a blank target, an update, and a read in a function literal. -/
def introducing : String :=
  "package p\n\nfunc f(m map[int]int, k int) (n int, ok bool) \x7b\n\t_, ok = m[k]\n" ++
    "\tm[k]++\n\tg := func() int \x7b\n\t\treturn m[k+1] * 2\n\t\x7d\n\treturn g(), ok\n\x7d\n"

theorem introduced_fresh_in_literal :
    ∃ file lowered decl decl', SourceFile.ofSource {} 0 introducing = .ok file ∧
      file.lower (Table.ofFile file).resolver {} = .ok lowered ∧ decl ∈ file.decls ∧
      decl' ∈ lowered.file.decls ∧
      decl.introduced decl' = ["_1", "_unused0", "_unused1", "_unused2"] ∧
      (decl.introduced decl').Nodup ∧ ∀ name ∈ decl.introduced decl', name ∉ decl.identifiers := by
  obtain ⟨file, lowered, hfile, hlower, hfound⟩ := @exists_lowered introducing
    (fun file lowered => (file.decls.head?.bind fun decl => lowered.file.decls.head?.filter
      fun decl' => decl.introduced decl' == ["_1", "_unused0", "_unused1", "_unused2"] &&
        decl.outNames.all (fun name => !"_unused".toList.isPrefixOf name.toList) &&
        decl.identifiers.all fun name => !decl.outNames.contains name &&
          !"_unused".toList.isPrefixOf name.toList).isSome) (by decide +kernel)
  obtain ⟨decl', hfound⟩ := Option.isSome_iff_exists.1 hfound
  obtain ⟨decl, hdecl, hfound⟩ := Option.bind_eq_some_iff.1 hfound
  obtain ⟨hdecl', hfound⟩ := Option.filter_eq_some_iff.1 hfound
  obtain ⟨rest, hrest⟩ := head?_eq_some_iff.1 hdecl
  obtain ⟨rest', hrest'⟩ := head?_eq_some_iff.1 hdecl'
  simp only [Bool.and_eq_true, beq_iff_eq, all_eq_true, Bool.not_eq_true',
    contains_eq_mem, decide_eq_false_iff_not] at hfound
  obtain ⟨⟨hintroduced, houts⟩, hidentifiers⟩ := hfound
  have hfresh := SourceFile.introduced_fresh hlower
  rw [hrest, hrest'] at hfresh
  obtain ⟨-, hnodup, hfresh⟩ := (forall₂_cons.1 hfresh).1
  refine ⟨file, lowered, decl, decl', hfile, hlower, by simp [hrest], by simp [hrest'],
    hintroduced, hnodup fun n hn => ne_discardName {} (houts _ hn) n rfl,
    hfresh fun name hname => ?_⟩
  rintro (hout | ⟨n, hn⟩)
  · exact (hidentifiers name hname).1 hout
  · exact ne_discardName {} (hidentifiers name hname).2 n hn

end ScriptLowering
