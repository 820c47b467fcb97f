import ScriptLowering.Proofs.Nesting

/-!
# Lowered signatures

A parameter list is well formed when its entries are all named or all unnamed, only the last
one is variadic, and no name is bound twice. A lowered head lists the receiver, the parameters
and then the output parameters. Output parameters are named, are pointers and differ from each
other, whatever stands before them: so the list stays well formed exactly when nothing moves,
or when what stands before them is named, has no variadic entry and keeps off their names.
-/

namespace ScriptLowering

open List

/-- The type of a parameter that takes any number of arguments. -/
def TypeExpr.isVariadic : TypeExpr → Bool
  | variadic _ => true
  | _ => false

namespace Field

/-- The names of a list that can be referred to. -/
def visibleNames (fields : List Field) : List String :=
  (boundNames fields).filter (· != "_")

/-- A parameter list that a signature can have. -/
structure WellFormed (fields : List Field) : Prop where
  naming : (∀ field ∈ fields, field.names ≠ []) ∨ ∀ field ∈ fields, field.names = []
  variadic : ∀ field ∈ fields.dropLast, field.type.val.isVariadic = false
  distinct : (visibleNames fields).Nodup

theorem wellFormed_iff (fields : List Field) :
    WellFormed fields ↔
      ((∀ field ∈ fields, field.names ≠ []) ∨ ∀ field ∈ fields, field.names = []) ∧
        (∀ field ∈ fields.dropLast, field.type.val.isVariadic = false) ∧
        (visibleNames fields).Nodup :=
  ⟨fun h => ⟨h.naming, h.variadic, h.distinct⟩, fun h => ⟨h.1, h.2.1, h.2.2⟩⟩

instance (fields : List Field) : Decidable (WellFormed fields) :=
  decidable_of_iff _ (wellFormed_iff fields).symm

/-- Entries that can follow any others: named, not variadic, with names of their own. -/
structure Trailing (outs : List Field) : Prop where
  named : ∀ field ∈ outs, field.names ≠ []
  single : ∀ field ∈ outs, field.type.val.isVariadic = false
  nodup : (boundNames outs).Nodup
  visible : "_" ∉ boundNames outs

/-- The list that `outs` are appended to: its entries are named, no entry is variadic, and no
name is among `names`. -/
def Admits (fields : List Field) (names : List String) : Prop :=
  (∀ field ∈ fields, field.names ≠ [] ∧ field.type.val.isVariadic = false) ∧
    ∀ name ∈ names, name ∉ boundNames fields

instance (fields : List Field) (names : List String) : Decidable (Admits fields names) :=
  inferInstanceAs (Decidable (_ ∧ _))

variable {fields outs : List Field}

theorem visibleNames_append (fields outs : List Field) :
    visibleNames (fields ++ outs) = visibleNames fields ++ visibleNames outs := by
  simp [visibleNames, boundNames]

theorem Trailing.visibleNames_eq (h : Trailing outs) : visibleNames outs = boundNames outs := by
  refine filter_eq_self.2 fun name hname => ?_
  rw [bne_iff_ne]
  rintro rfl
  exact h.visible hname

theorem mem_visibleNames {name} (h : name ≠ "_") :
    name ∈ visibleNames fields ↔ name ∈ boundNames fields := by
  simp [visibleNames, h]

/-- No name of `outs` is bound before, as far as names can be referred to. -/
theorem Trailing.disjoint_iff (h : Trailing outs) :
    Disjoint (visibleNames fields) (visibleNames outs) ↔
      ∀ name ∈ boundNames outs, name ∉ boundNames fields := by
  rw [h.visibleNames_eq]
  constructor
  · intro hdisjoint name hname hbound
    have hvisible : name ≠ "_" := fun hblank => h.visible (hblank ▸ hname)
    exact hdisjoint ((mem_visibleNames hvisible).2 hbound) hname
  · intro hkeeps name hbound hname
    exact hkeeps name hname (mem_of_mem_filter hbound)

theorem wellFormed_append_iff (hform : WellFormed fields) (houts : Trailing outs)
    (hne : outs ≠ []) : WellFormed (fields ++ outs) ↔ Admits fields (boundNames outs) := by
  have hdrop : (fields ++ outs).dropLast = fields ++ outs.dropLast :=
    dropLast_append_of_ne_nil hne
  obtain ⟨out, hout⟩ := exists_mem_of_ne_nil outs hne
  constructor
  · intro h
    -- an output parameter is there and has a name, so every entry has one
    have hnamed : ∀ field ∈ fields ++ outs, field.names ≠ [] := by
      refine h.naming.resolve_right fun hnone => ?_
      exact houts.named out hout (hnone out (mem_append_right _ hout))
    have hdistinct := h.distinct
    rw [visibleNames_append, nodup_append'] at hdistinct
    refine ⟨fun field hfield => ⟨hnamed field (mem_append_left _ hfield), ?_⟩,
      houts.disjoint_iff.1 hdistinct.2.2⟩
    exact h.variadic field (hdrop ▸ mem_append_left _ hfield)
  · rintro ⟨hentries, hkeeps⟩
    refine ⟨.inl fun field hfield => ?_, fun field hfield => ?_, ?_⟩
    · rcases mem_append.1 hfield with hfield | hfield
      · exact (hentries field hfield).1
      · exact houts.named field hfield
    · rw [hdrop] at hfield
      rcases mem_append.1 hfield with hfield | hfield
      · exact (hentries field hfield).2
      · exact houts.single field ((dropLast_subset _) hfield)
    · rw [visibleNames_append, nodup_append', houts.disjoint_iff]
      exact ⟨hform.distinct, houts.visibleNames_eq ▸ houts.nodup, hkeeps⟩

end Field

namespace Lowering

section Heads

variable {func func' : FuncDecl}

/-- The entries that stand before the output parameters. -/
def givenParams (func : FuncDecl) : List Field := func.receiver.getD [] ++ func.params

/-- The results that move, each with its entry, the last one first. -/
def movedResults (func : FuncDecl) : List (Entry × Field) :=
  (((entries (shapeOf func.results)).zip func.results).filter (·.1.moves)).reverse

/-- The output parameters of a function. -/
def outParams (func : FuncDecl) : List Field :=
  (movedResults func).map fun x => outField func.results.length x.1 x.2

theorem boundNames_outParams (func : FuncDecl) :
    Field.boundNames (outParams func) =
      (movedEntries (shapeOf func.results)).reverse.flatMap
        (Entry.outNames func.results.length) := by
  rw [outParams, movedResults, Field.boundNames, flatMap_map, movedEntries,
    ← map_fst_filter_zip, ← map_reverse, flatMap_map]
  exact flatMap_congr fun _ _ => boundNames_outField ..

theorem arity_of_mem_entriesFrom {index start shape entry}
    (h : entry ∈ entriesFrom index start shape) : entry.arity ∈ shape := by
  induction shape generalizing index start with
  | nil => cases h
  | cons arity shape ih =>
    cases h with
    | head => exact mem_cons_self
    | tail _ h => exact mem_cons_of_mem _ (ih h)

theorem arity_pos_of_mem_movedResults {entry field} (h : (entry, field) ∈ movedResults func) :
    0 < entry.arity := by
  have hentry : entry ∈ entries (shapeOf func.results) := by
    have := mem_of_mem_filter (mem_reverse.1 h)
    exact (of_mem_zip this).1
  exact shapeOf_pos _ _ (arity_of_mem_entriesFrom hentry)

theorem outName_ne_blank (count : Nat) (entry : Entry) (offset : Nat) :
    entry.outName count offset ≠ "_" := by
  intro h
  have hlist := congrArg String.toList h
  rw [toList_outName] at hlist
  simp_all

theorem trailing_outParams (func : FuncDecl) : Field.Trailing (outParams func) := by
  have hcount : func.results.length = (shapeOf func.results).length := by simp [shapeOf]
  refine ⟨fun out hout => ?_, fun out hout => ?_, ?_, ?_⟩
  · obtain ⟨⟨entry, field⟩, hmoved, rfl⟩ := mem_map.1 hout
    have hpos := arity_pos_of_mem_movedResults hmoved
    intro hnames
    have hnone := congrArg length (boundNames_outField func.results.length entry field)
    simp [hnames, Entry.outNames] at hnone
    omega
  · obtain ⟨⟨entry, field⟩, -, rfl⟩ := mem_map.1 hout
    rfl
  · rw [boundNames_outParams, hcount]
    exact ((reverse_perm _).flatMap_right _).nodup_iff.2 (nodup_outNames_movedEntries _)
  · rw [boundNames_outParams]
    intro hblank
    obtain ⟨entry, -, hname⟩ := mem_flatMap.1 hblank
    obtain ⟨offset, -, hname⟩ := mem_map.1 hname
    exact outName_ne_blank _ _ _ hname

theorem outParams_eq_nil_iff (func : FuncDecl) :
    outParams func = [] ↔ Field.totalArity func.results < 2 := by
  have hpairs : outPairs func.results.length (movedEntries (shapeOf func.results)) = [] ↔
      Field.totalArity func.results < 2 := by
    rw [totalArity_eq, ← moved_eq_nil_iff (shapeOf_pos _),
      ← map_fst_outPairs func.results.length, map_eq_nil_iff]
  have hnames : outPairs func.results.length (movedEntries (shapeOf func.results)) = [] ↔
      Field.boundNames (outParams func) = [] := by
    rw [boundNames_outParams, ← map_eq_nil_iff, map_snd_outPairs]
    simp
  rw [← hpairs, hnames]
  constructor
  · intro h
    rw [h]
    rfl
  · intro h
    refine eq_nil_iff_forall_not_mem.2 fun out hout => ?_
    obtain ⟨name, hname⟩ := exists_mem_of_ne_nil _ ((trailing_outParams func).named out hout)
    have hbound : name.val ∈ Field.boundNames (outParams func) :=
      mem_flatMap.2 ⟨out, hout, mem_map_of_mem hname⟩
    exact absurd h (ne_nil_of_mem hbound)

theorem params_of_lowerFunc {fuel env s s'} (h : lowerFunc fuel env func s = .ok (func', s')) :
    func'.params = givenParams func ++ outParams func := by
  have hwalks := (lowerFunc_walks func).of_ok h
  cases hwalks <;> rfl

/-- A lowered parameter list is well formed exactly when no result moved, or when the entries
before the output parameters are all named, none of them is variadic, and none binds the name
of an output parameter. -/
theorem wellFormed_params_iff {fuel : Nat} {env : Env} {s s' : State}
    (hform : Field.WellFormed (givenParams func))
    (h : lowerFunc fuel env func s = .ok (func', s')) :
    Field.WellFormed func'.params ↔ Field.totalArity func.results < 2 ∨
      Field.Admits (givenParams func) (Field.boundNames (outParams func)) := by
  rw [params_of_lowerFunc h]
  by_cases hmoved : Field.totalArity func.results < 2
  · rw [(outParams_eq_nil_iff func).2 hmoved, append_nil]
    exact iff_of_true hform (.inl hmoved)
  · rw [or_iff_right hmoved]
    exact Field.wellFormed_append_iff hform (trailing_outParams func)
      (mt (outParams_eq_nil_iff func).1 hmoved)

/-- The first function of a source, and what it is lowered to. -/
def loweredFunc? (source : String) : Option (FuncDecl × FuncDecl) := do
  let file ← (SourceFile.ofSource {} 0 source).toOption
  let func ← file.functions.head?
  let result ← (lowerFunc file.loweringFuel
    ⟨(Table.ofFile file).resolver, {}, shapesOf file⟩ func ⟨file.nextId, 0, [], []⟩).toOption
  return (func, result.1)

theorem exists_run_of_loweredFunc? {source} (h : loweredFunc? source = some (func, func')) :
    ∃ fuel env s s', lowerFunc fuel env func s = .ok (func', s') := by
  obtain ⟨file, -, h⟩ := Option.bind_eq_some_iff.1 h
  obtain ⟨func1, -, h⟩ := Option.bind_eq_some_iff.1 h
  obtain ⟨⟨func2, s'⟩, hrun, h⟩ := Option.bind_eq_some_iff.1 h
  cases h
  exact ⟨_, _, _, s', eq_ok_of_toOption hrun⟩

/-- Heads with an entry that has no name, with a variadic entry, and with an entry named like
an output parameter. -/
def illFollowed : List String :=
  ["package p\n\nfunc f(int) (int, bool) \x7b\n\treturn 1, true\n\x7d\n",
    "package p\n\nfunc f(a ...int) (int, bool) \x7b\n\treturn 1, true\n\x7d\n",
    "package p\n\nfunc f(_1 int) (int, bool) \x7b\n\treturn 1, true\n\x7d\n"]

theorem wellFormed_params_lost :
    (illFollowed.map fun source => (loweredFunc? source).map fun p =>
      (decide (Field.WellFormed (givenParams p.1)), decide (Field.WellFormed p.2.params))) =
        replicate 3 (some (true, false)) := by
  decide +kernel

/-- A method with a blank name among its parameters and with entries of several results. -/
def blankFollowed : String :=
  "package p\n\nfunc (t T) f(_ int, b string) (x, y int, ok bool) \x7b\n\treturn\n\x7d\n"

theorem wellFormed_params_of_method :
    ∃ func func', loweredFunc? blankFollowed = some (func, func') ∧
      Field.WellFormed (givenParams func) ∧ 2 ≤ Field.totalArity func.results ∧
      Field.WellFormed func'.params := by
  have hrun : ((loweredFunc? blankFollowed).filter fun p =>
      decide (Field.WellFormed (givenParams p.1)) &&
        (decide (2 ≤ Field.totalArity p.1.results) &&
          decide (Field.Admits (givenParams p.1) (Field.boundNames (outParams p.1))))).isSome := by
    decide +kernel
  obtain ⟨⟨func, func'⟩, hrun⟩ := Option.isSome_iff_exists.1 hrun
  obtain ⟨hlowered, hhead⟩ := Option.filter_eq_some_iff.1 hrun
  simp only [Bool.and_eq_true, decide_eq_true_eq] at hhead
  obtain ⟨fuel, env, s, s', hok⟩ := exists_run_of_loweredFunc? hlowered
  exact ⟨func, func', hlowered, hhead.1, hhead.2.1,
    (wellFormed_params_iff hhead.1 hok).2 (.inr hhead.2.2)⟩

end Heads

end Lowering

end ScriptLowering
