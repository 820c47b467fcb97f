import ScriptLowering.Proofs.Signatures

/-!
# Results that move

The target grammar returns one value at most. Lowering a head loses no value for it: a first result
entry of one value stays, and every other one stands at the end of the parameters, from last to
first, as pointers. `Redistributes` says so of two heads without following the computation.
-/

namespace ScriptLowering.Lowering

open List

/-- The results that stay: a first entry that binds one name at most. -/
def stayingResults : List Field → List Field
  | [] => []
  | first :: _ => if first.names.length ≤ 1 then [first] else []

/-- The names that stand for the values of an entry, which is the `k`-th from the end. -/
def outputNames (k : Nat) (field : Field) : List String :=
  if field.names.length ≤ 1 then [s!"_{k}"]
  else (range' 1 field.names.length).map fun j => s!"_{k}_{j}"

/-- The output parameters `out` take the values of the entry `x.1`, which is the `x.2`-th from the
end. -/
structure StandsFor (x : Field × Nat) (out : Field) : Prop where
  type : out.type.val = .pointer x.1.type.val
  names : out.names.map (·.val) = outputNames x.2 x.1
  arity : out.names.length = x.1.arity

/-- The values that the head of a function takes and returns are those of the head of `func`. -/
structure Redistributes (func func' : FuncDecl) (outs : List Field) : Prop where
  receiver : func'.receiver = none
  results : func'.results = stayingResults func.results
  params : func'.params = func.receiver.getD [] ++ func.params ++ outs
  moved : Forall₂ StandsFor
    ((func.results.drop func'.results.length).reverse.zipIdx 1) outs
  distinct : (Field.boundNames outs).Nodup
  entries : func'.params.length = (func.receiver.getD []).length + func.params.length +
    (func.results.length - func'.results.length)
  values : Field.totalArity func'.params + Field.totalArity func'.results =
    Field.totalArity (func.receiver.getD []) + Field.totalArity func.params +
      Field.totalArity func.results

section Entries

theorem totalArity_append (fields fields' : List Field) :
    Field.totalArity (fields ++ fields') = Field.totalArity fields + Field.totalArity fields' := by
  induction fields with
  | nil => simp [Field.totalArity]
  | cons field fields ih =>
    simp only [Field.totalArity, cons_append, foldr_cons] at ih ⊢
    omega

theorem outNames_eq (count : Nat) (entry : Entry) (field : Field) (h : entry.arity = field.arity) :
    entry.outNames count = outputNames (count - entry.index) field := by
  unfold Entry.outNames outputNames Entry.outName
  rw [h, Field.arity]
  by_cases hone : field.names.length ≤ 1
  · rw [Nat.max_eq_right hone, if_pos hone]
    rfl
  · rw [Nat.max_eq_left (by omega), if_neg hone, range'_eq_map_range, map_map]
    exact map_congr_left fun j _ => by simp [Nat.lt_of_not_le hone, Nat.add_comm]

theorem outField_standsFor (count : Nat) (entry : Entry) (field : Field)
    (h : entry.arity = field.arity) :
    StandsFor (field, count - entry.index) (outField count entry field) where
  type := rfl
  names := by rw [boundNames_outField, outNames_eq count entry field h]
  arity := by simp [outField, Entry.outNames, h]

/-- The last entries of a list, from last to first: their numbers count from the end. -/
theorem outFields_standFor {count} (fields : List Field) (index start : Nat)
    (hcount : index + fields.length = count) : Forall₂ StandsFor (fields.reverse.zipIdx 1)
      (((entriesFrom index start (shapeOf fields)).zip fields).reverse.map
        fun x => outField count x.1 x.2) := by
  induction fields generalizing index start with
  | nil => exact .nil
  | cons field fields ih =>
    rw [length_cons] at hcount
    have hrest := ih (index + 1) (start + field.arity) (by omega)
    have hlast := outField_standsFor count ⟨index, start, field.arity⟩ field rfl
    have hnumber : count - index = 1 + fields.length := by omega
    rw [hnumber] at hlast
    simp only [shapeOf, map_cons, entriesFrom, zip_cons_cons, reverse_cons,
      map_append, zipIdx_append, length_reverse] at hrest ⊢
    exact rel_append hrest (.cons hlast .nil)

/-- All entries behind the first one move. -/
theorem moves_of_mem_zip (fields : List Field) (start : Nat) (entry : Entry) (field : Field)
    (h : (entry, field) ∈ (entriesFrom 1 start (shapeOf fields)).zip fields) : entry.moves = true :=
  moves_of_mem_entriesFrom (of_mem_zip h).1

theorem moves_first (field : Field) :
    Entry.moves ⟨0, 0, field.arity⟩ = !decide (field.names.length ≤ 1) := by
  simp only [Entry.moves, Field.arity]
  by_cases h : field.names.length ≤ 1
  · simp [h]
  · simp [Nat.max_eq_left (Nat.le_of_not_le h), h, Nat.lt_of_not_le h]

theorem results_lowerHead (func : FuncDecl) :
    (lowerHead func).func.results = stayingResults func.results := by
  simp only [lowerHead]
  cases func.results with
  | nil => rfl
  | cons first rest =>
    have hrest := moves_of_mem_zip rest first.arity
    by_cases hone : first.names.length ≤ 1 <;>
      simpa [shapeOf, entries, entriesFrom, moves_first, stayingResults, hone] using hrest

/-- The entries that move are the last ones. -/
theorem movedResults_eq (func : FuncDecl) :
    ∃ index start fields, fields = func.results.drop (stayingResults func.results).length ∧
      index + fields.length = func.results.length ∧
      movedResults func = ((entriesFrom index start (shapeOf fields)).zip fields).reverse := by
  unfold movedResults
  cases func.results with
  | nil => exact ⟨0, 0, [], rfl, rfl, rfl⟩
  | cons first rest =>
    have hrest := moves_of_mem_zip rest first.arity
    by_cases hone : first.names.length ≤ 1
    · refine ⟨1, first.arity, rest, by simp [stayingResults, hone], Nat.add_comm .., ?_⟩
      simpa [shapeOf, entries, entriesFrom, moves_first, hone] using hrest
    · refine ⟨0, 0, first :: rest, by simp [stayingResults, hone], Nat.zero_add _, ?_⟩
      simpa [shapeOf, entries, entriesFrom, moves_first, hone] using hrest

theorem outParams_standFor (func : FuncDecl) :
    Forall₂ StandsFor
      ((func.results.drop (stayingResults func.results).length).reverse.zipIdx 1)
      (outParams func) := by
  obtain ⟨index, start, fields, hfields, hcount, hmoved⟩ := movedResults_eq func
  rw [outParams, hmoved, ← hfields]
  exact outFields_standFor fields index start hcount

end Entries

section Values

theorem totalArity_reverse (fields : List Field) :
    Field.totalArity fields.reverse = Field.totalArity fields := by
  rw [Field.totalArity, Field.totalArity]
  exact (reverse_perm fields).foldr_eq' (fun x _ y _ z => by omega) 0

/-- What stands for an entry has as many values. -/
theorem totalArity_standFor {fields outs k} (h : Forall₂ StandsFor (fields.zipIdx k) outs) :
    Field.totalArity outs = Field.totalArity fields := by
  induction fields generalizing k outs with
  | nil =>
    cases h
    rfl
  | cons field fields ih =>
    cases h with
    | cons hout hrest =>
      have harity := hout.arity
      have hpos := field_arity_pos field
      simp only [Field.totalArity, foldr_cons, Field.arity] at ih harity hpos ⊢
      rw [ih hrest, harity]
      omega

/-- Nothing is lost: what stays and what moves are all the results. -/
theorem staying_append_moved (results : List Field) :
    stayingResults results ++ results.drop (stayingResults results).length = results := by
  cases results with
  | nil => rfl
  | cons first rest => by_cases hone : first.names.length ≤ 1 <;> simp [stayingResults, hone]

theorem redistributes_of_head {func func'} (hreceiver : func'.receiver = none)
    (hresults : func'.results = stayingResults func.results)
    (hparams : func'.params = givenParams func ++ outParams func) :
    Redistributes func func' (outParams func) := by
  have hmoved := outParams_standFor func
  have hentries := hmoved.length_eq
  have hvalues := totalArity_standFor hmoved
  have hall := congrArg Field.totalArity (staying_append_moved func.results)
  rw [← hresults] at hmoved hentries hvalues hall
  rw [length_zipIdx, length_reverse, length_drop] at hentries
  rw [totalArity_reverse] at hvalues
  rw [totalArity_append] at hall
  refine ⟨hreceiver, hresults, hparams, hmoved, (trailing_outParams func).nodup, ?_, ?_⟩
  · rw [hparams, givenParams, length_append, length_append, hentries]
  · rw [hparams, givenParams, totalArity_append, totalArity_append]
    omega

end Values

/-- Lowering the head of a function that passes the check conserves its values: the receiver slot is
empty, a first result entry of one name at most is all that may stay, the output parameters behind
the others are the entries that moved, from last to first, under names that differ, and numbers of
entries and of values agree. A head without body is all there is to lower; otherwise the body comes
with the same head. -/
theorem results_redistributed {func : FuncDecl} (hlegal : func.headReports = []) :
    ∃ outs, Redistributes func (lowerHead func).func outs ∧
      (func.body = none →
        ∀ fuel env s, lowerFunc fuel env func s = .ok ((lowerHead func).func, s)) ∧
      ∀ fuel env s func' s', lowerFunc fuel env func s = .ok (func', s') →
        Redistributes func func' outs := by
  refine ⟨outParams func, redistributes_of_head rfl (results_lowerHead func) rfl, ?_, ?_⟩
  · intro hbody fuel env s
    have hhead : (lowerHead func).func.body = none := hbody
    simp only [lowerFunc, requireLegal, hlegal, hhead]
    rfl
  · intro fuel env s func' s' h
    refine redistributes_of_head ?_ ?_ (params_of_lowerFunc h)
    · cases (lowerFunc_walks func).of_ok h <;> rfl
    · cases (lowerFunc_walks func).of_ok h <;> exact results_lowerHead func

/-- A method with entries of one, several and no names among its results. -/
def gauge : FuncDecl where
  receiver := some [⟨[⟨"g", default⟩], ⟨.pointer (.named "Gauge"), default⟩⟩]
  name := ⟨"read", default⟩
  params := [⟨[⟨"a", default⟩, ⟨"b", default⟩], ⟨.named "int", default⟩⟩]
  results := [⟨[⟨"n", default⟩], ⟨.named "int", default⟩⟩,
    ⟨[⟨"s", default⟩, ⟨"t", default⟩], ⟨.named "string", default⟩⟩,
    ⟨[], ⟨.named "bool", default⟩⟩]
  body := none
  span := default

theorem results_redistributed_of_gauge : gauge.headReports = [] ∧
    ∃ outs, Redistributes gauge (lowerHead gauge).func outs ∧
      Field.boundNames outs = ["_1", "_2_1", "_2_2"] := by
  obtain ⟨outs, hhead, -, -⟩ := @results_redistributed gauge rfl
  have houts : outParams gauge = outs := append_cancel_left hhead.params
  refine ⟨rfl, outs, hhead, ?_⟩
  rw [← houts]
  decide +kernel

end ScriptLowering.Lowering
