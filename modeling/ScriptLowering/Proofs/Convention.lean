import Mathlib.Data.List.Nodup
import ScriptLowering.Lowering.Engine
import ScriptLowering.Proofs.Supply

/-!
# One calling convention

The results of a function that move are passed by address. Its declaration appends output
parameters for them, a call site passes the targets that stand for them, and a return that
forwards a call passes the output parameters of its own function. All three list the same
positions in the same order.

The order is `outPositions`. What a declaration does is recorded in its `ReturnPlan`, which
gives each position that moved its output parameter; that the plan and the appended parameters
speak of the same names comes down to the names being distinct.
-/

namespace ScriptLowering.Lowering

open List

/-! ## Positions -/

section Positions

variable {index start : Nat} {shape : List Nat} {entry : Entry}

theorem length_entriesFrom : (entriesFrom index start shape).length = shape.length := by
  induction shape generalizing index start with
  | nil => rfl
  | cons arity shape ih => simp [entriesFrom, ih]

theorem index_of_mem_entriesFrom (h : entry ∈ entriesFrom index start shape) :
    index ≤ entry.index ∧ entry.index < index + shape.length := by
  induction shape generalizing index start with
  | nil => cases h
  | cons arity shape ih =>
    rw [length_cons]
    cases h with
    | head => exact ⟨Nat.le_refl _, by dsimp only; omega⟩
    | tail _ h =>
      have := ih h
      omega

theorem entriesFrom_pairwise : (entriesFrom index start shape).Pairwise (·.index < ·.index) := by
  induction shape generalizing index start with
  | nil => exact .nil
  | cons arity shape ih => exact .cons (fun _ h => (index_of_mem_entriesFrom h).1) ih

/-- The entries cover the positions, in order. -/
theorem positions_entriesFrom :
    (entriesFrom index start shape).flatMap Entry.positions =
      range' start (valueCount shape) := by
  induction shape generalizing index start with
  | nil => rfl
  | cons arity shape ih =>
    simp only [entriesFrom, flatMap_cons, ih]
    exact range'_append_1

/-- Only the first entry can stay. -/
theorem moves_of_mem_entriesFrom (h : entry ∈ entriesFrom (index + 1) start shape) :
    entry.moves = true := by
  have := (index_of_mem_entriesFrom h).1
  have hindex : entry.index ≠ 0 := by omega
  simp [Entry.moves, hindex]

/-- The entries that become output parameters, first to last. -/
def movedEntries (shape : List Nat) : List Entry := (entries shape).filter Entry.moves

/-- The position that is still returned, if there is one. -/
def keptPositions (shape : List Nat) : List Nat := if firstStays shape then [0] else []

theorem movedEntries_cons (arity : Nat) (shape : List Nat) :
    movedEntries (arity :: shape) =
      if 1 < arity then entries (arity :: shape) else entriesFrom 1 arity shape := by
  have hrest : (entriesFrom 1 arity shape).filter Entry.moves = entriesFrom 1 arity shape :=
    filter_eq_self.2 fun _ h => moves_of_mem_entriesFrom h
  by_cases h : 1 < arity <;>
    simp [movedEntries, entries, entriesFrom, hrest, Entry.moves, h]

theorem firstStays_cons (arity : Nat) (shape : List Nat) :
    firstStays (arity :: shape) = !decide (1 < arity) := by
  simp [firstStays, Entry.moves]

/-- Every position is kept or moves, and none does both. -/
theorem kept_append_moved (h : ∀ arity ∈ shape, 0 < arity) :
    keptPositions shape ++ (movedEntries shape).flatMap Entry.positions =
      range (valueCount shape) := by
  cases shape with
  | nil => rfl
  | cons arity shape =>
    have harity : 0 < arity := h arity (by simp)
    rw [keptPositions, firstStays_cons, movedEntries_cons]
    by_cases hmoves : 1 < arity
    · simp only [hmoves, decide_true, Bool.not_true, Bool.false_eq_true, if_false, if_true,
        nil_append, entries, positions_entriesFrom, range_eq_range']
    · obtain rfl : arity = 1 := by omega
      simp only [Nat.lt_irrefl, decide_false, Bool.not_false, if_true, if_false,
        positions_entriesFrom, range_eq_range']
      exact range'_append_1 (s := 0) (m := 1)

/-- Some position moves as soon as there are two. -/
theorem moved_eq_nil_iff (h : ∀ arity ∈ shape, 0 < arity) :
    (movedEntries shape).flatMap Entry.positions = [] ↔ valueCount shape < 2 := by
  cases shape with
  | nil => simp [movedEntries, entries, entriesFrom, valueCount]
  | cons arity shape =>
    have harity : 0 < arity := h arity (by simp)
    have hcount : valueCount (arity :: shape) = arity + valueCount shape := rfl
    rw [movedEntries_cons]
    split
    · rw [entries, positions_entriesFrom, range'_eq_nil_iff]
      omega
    · rw [positions_entriesFrom, range'_eq_nil_iff]
      omega

theorem outPositions_eq (shape : List Nat) :
    outPositions shape = (movedEntries shape).reverse.flatMap Entry.positions := by
  rw [outPositions, filter_reverse]
  rfl

theorem outPositions_perm (shape : List Nat) :
    (outPositions shape).Perm ((movedEntries shape).flatMap Entry.positions) := by
  rw [outPositions_eq]
  exact (reverse_perm _).flatMap_right _

theorem kept_append_out_perm (h : ∀ arity ∈ shape, 0 < arity) :
    (keptPositions shape ++ outPositions shape).Perm (range (valueCount shape)) := by
  rw [← kept_append_moved h]
  exact (outPositions_perm shape).append_left _

end Positions

/-! ## Names of output parameters -/

section Names

variable {count offset offset' : Nat} {entry entry' : Entry}

theorem toList_outName (count : Nat) (entry : Entry) (offset : Nat) :
    (entry.outName count offset).toList = '_' :: (Nat.toDigits 10 (count - entry.index) ++
      if 1 < entry.arity then '_' :: Nat.toDigits 10 (offset + 1) else []) := by
  unfold Entry.outName
  split <;> simp [toString]

/-- The digits up to the next underscore number the entry. -/
theorem takeWhile_outName (count : Nat) (entry : Entry) (offset : Nat) :
    (entry.outName count offset).toList.tail.takeWhile (· != '_') =
      Nat.toDigits 10 (count - entry.index) := by
  have hdigit : ∀ c ∈ Nat.toDigits 10 (count - entry.index), (c != '_') = true := by
    intro c hc
    have hd := Nat.isDigit_of_mem_toDigits (by decide) (by decide) hc
    rw [bne_iff_ne]
    rintro rfl
    exact absurd hd (by decide)
  rw [toList_outName, tail_cons, takeWhile_append_of_pos hdigit]
  split <;> simp

theorem index_of_outName (hi : entry.index < count) (hi' : entry'.index < count)
    (h : entry.outName count offset = entry'.outName count offset') :
    entry.index = entry'.index := by
  have hnumber : Nat.toDigits 10 (count - entry.index) =
      Nat.toDigits 10 (count - entry'.index) := by
    rw [← takeWhile_outName count entry offset, ← takeWhile_outName count entry' offset', h]
  have := toDigits_injective hnumber
  omega

theorem offset_of_outName (harity : 1 < entry.arity)
    (h : entry.outName count offset = entry.outName count offset') : offset = offset' := by
  have hlist := congrArg String.toList h
  simp only [toList_outName, if_pos harity, cons.injEq, true_and,
    append_cancel_left_eq] at hlist
  have := toDigits_injective hlist
  omega

theorem outNames_nodup (count : Nat) (entry : Entry) : (entry.outNames count).Nodup := by
  refine nodup_range.map_on fun offset ho offset' ho' h => ?_
  rcases Nat.lt_or_ge 1 entry.arity with harity | harity
  · exact offset_of_outName harity h
  · -- a single name, which carries no offset
    rw [mem_range] at ho ho'
    omega

/-- Output parameters of one function have different names. -/
theorem nodup_outNames_movedEntries (shape : List Nat) :
    ((movedEntries shape).flatMap (Entry.outNames shape.length)).Nodup := by
  rw [nodup_flatMap]
  refine ⟨fun entry _ => outNames_nodup _ entry, ?_⟩
  have hpairwise : (movedEntries shape).Pairwise (·.index < ·.index) :=
    entriesFrom_pairwise.filter _
  refine hpairwise.imp_of_mem fun {entry entry'} hmem hmem' hlt name hname hname' => ?_
  obtain ⟨offset, -, rfl⟩ := mem_map.1 hname
  obtain ⟨offset', -, h⟩ := mem_map.1 hname'
  have hindex (e : Entry) (he : e ∈ movedEntries shape) : e.index < shape.length := by
    have := index_of_mem_entriesFrom (mem_of_mem_filter he)
    omega
  have := index_of_outName (hindex _ hmem') (hindex _ hmem) h
  omega

end Names

/-! ## Declarations -/

section Declarations

variable {count : Nat} {func : FuncDecl} {plan : ReturnPlan}

theorem totalArity_eq (results : List Field) :
    Field.totalArity results = valueCount (shapeOf results) := by
  rw [Field.totalArity, valueCount, shapeOf, foldr_map]

theorem field_arity_pos (field : Field) : 0 < field.arity :=
  Nat.lt_of_lt_of_le Nat.one_pos (Nat.le_max_right ..)

theorem shapeOf_pos (results : List Field) : ∀ arity ∈ shapeOf results, 0 < arity := by
  intro arity h
  obtain ⟨field, -, rfl⟩ := mem_map.1 h
  exact field_arity_pos field

/-- Position and output parameter of each value of these entries. -/
def outPairs (count : Nat) (moved : List Entry) : List (Nat × String) :=
  moved.flatMap fun entry => entry.positions.zip (entry.outNames count)

theorem map_fst_outPairs (count : Nat) (moved : List Entry) :
    (outPairs count moved).map Prod.fst = moved.flatMap Entry.positions := by
  rw [outPairs, map_flatMap]
  refine flatMap_congr fun entry _ => map_fst_zip ?_
  simp [Entry.positions, Entry.outNames]

theorem map_snd_outPairs (count : Nat) (moved : List Entry) :
    (outPairs count moved).map Prod.snd = moved.flatMap (Entry.outNames count) := by
  rw [outPairs, map_flatMap]
  refine flatMap_congr fun entry _ => map_snd_zip ?_
  simp [Entry.positions, Entry.outNames]

/-- The fields of a result list whose entries satisfy `p`, seen through their entries. -/
theorem map_fst_filter_zip (results : List Field) (p : Entry → Bool) :
    (((entries (shapeOf results)).zip results).filter fun x => p x.1).map Prod.fst =
      (entries (shapeOf results)).filter p := by
  have hlength : (entries (shapeOf results)).length ≤ results.length := by
    simp [entries, length_entriesFrom, shapeOf]
  have hfilter := filter_map (f := Prod.fst) (p := p)
    (l := (entries (shapeOf results)).zip results)
  rw [map_fst_zip hlength] at hfilter
  exact hfilter.symm

theorem flatMap_moved (results : List Field) (count : Nat) :
    (((entries (shapeOf results)).zip results).filter (·.1.moves)).flatMap
        (fun x => x.1.positions.zip (x.1.outNames count)) =
      outPairs count (movedEntries (shapeOf results)) := by
  rw [movedEntries, ← map_fst_filter_zip, outPairs, flatMap_map]

/-- The first entry is the only one that can stay. -/
theorem filter_stays (shape : List Nat) :
    ((entries shape).filter fun entry => !entry.moves).isEmpty = !firstStays shape := by
  cases shape with
  | nil => rfl
  | cons arity shape =>
    have hrest : (entriesFrom 1 arity shape).filter (fun entry => !entry.moves) = [] :=
      filter_eq_nil_iff.2 fun _ h => by simp [moves_of_mem_entriesFrom h]
    simp only [entries, entriesFrom, filter_cons, Nat.zero_add, hrest, firstStays]
    cases Entry.moves ⟨0, 0, arity⟩ <;> rfl

/-- What the plan of a function records. -/
theorem plan_of_lowerHead (h : (lowerHead func).plan = some plan) :
    plan.total = valueCount (shapeOf func.results) ∧
      plan.keepsFirst = firstStays (shapeOf func.results) ∧
      plan.outs = outPairs func.results.length (movedEntries (shapeOf func.results)) := by
  simp only [lowerHead] at h
  split at h
  · cases h
  · cases h
    refine ⟨totalArity_eq _, ?_, flatMap_moved _ _⟩
    rw [← Bool.not_not (firstStays _), ← filter_stays, ← map_fst_filter_zip, isEmpty_map]

theorem plan_isSome_iff (func : FuncDecl) :
    (lowerHead func).plan.isSome ↔ 2 ≤ Field.totalArity func.results := by
  rw [← Nat.not_lt, totalArity_eq, ← moved_eq_nil_iff (shapeOf_pos _),
    ← map_fst_outPairs func.results.length, map_eq_nil_iff, ← flatMap_moved,
    ← List.isEmpty_iff]
  simp only [lowerHead]
  split
  · rename_i hempty
    exact iff_of_false Bool.false_ne_true (not_not_intro hempty)
  · rename_i hmoved
    exact iff_of_true rfl hmoved

theorem two_le_total (h : (lowerHead func).plan = some plan) : 2 ≤ plan.total := by
  rw [(plan_of_lowerHead h).1, ← totalArity_eq, ← plan_isSome_iff, h]
  rfl

theorem results_of_lowerHead (func : FuncDecl) :
    (lowerHead func).func.results.isEmpty = !firstStays (shapeOf func.results) := by
  rw [← filter_stays, ← map_fst_filter_zip, isEmpty_map]
  exact isEmpty_map

theorem boundNames_outField (count : Nat) (entry : Entry) (field : Field) :
    (outField count entry field).names.map (·.val) = entry.outNames count := by
  rw [outField, map_map]
  exact zipIdx_map_fst 0 _

theorem params_of_lowerHead (h : func.receiver = none) :
    ∃ outs, (lowerHead func).func.params = func.params ++ outs ∧
      Field.boundNames outs = (movedEntries (shapeOf func.results)).reverse.flatMap
        (Entry.outNames func.results.length) := by
  refine ⟨(((entries (shapeOf func.results)).zip func.results).filter (·.1.moves)).reverse.map
    fun x => outField func.results.length x.1 x.2, ?_, ?_⟩
  · simp only [lowerHead, h, Option.getD_none, nil_append]
  rw [Field.boundNames, flatMap_map, movedEntries, ← map_fst_filter_zip, ← map_reverse,
    flatMap_map]
  exact flatMap_congr fun _ _ => boundNames_outField ..

/-- `names` are the output parameters that the plan has for the positions in `order`, one by
one. -/
def ReturnPlan.Follows (plan : ReturnPlan) (order : List Nat) (names : List String) : Prop :=
  names.length = order.length ∧
    ∀ j p : Nat, order[j]? = some p ↔ ∃ name ∈ names[j]?, (p, name) ∈ plan.outs

theorem nodup_names_of_plan (h : (lowerHead func).plan = some plan) :
    (plan.outs.map Prod.snd).Nodup := by
  have hcount : func.results.length = (shapeOf func.results).length := by simp [shapeOf]
  rw [(plan_of_lowerHead h).2.2, map_snd_outPairs, hcount]
  exact nodup_outNames_movedEntries _

theorem ReturnPlan.follows_of_forall₂ {order names} (hnodup : (plan.outs.map Prod.snd).Nodup)
    (h : Forall₂ (fun p name => (p, name) ∈ plan.outs) order names) :
    plan.Follows order names := by
  refine ⟨h.length_eq.symm, ?_⟩
  induction h with
  | nil => simp
  | @cons _ _ _ _ hmem _ ih =>
    intro j p
    cases j with
    | zero =>
      simp only [getElem?_cons_zero, Option.some.injEq, Option.mem_def, exists_eq_left']
      constructor
      · rintro rfl
        exact hmem
      · intro hp
        have hpair := inj_on_of_nodup_map hnodup hmem hp rfl
        exact congrArg Prod.fst hpair
    | succ j => simpa using ih j p

/-- The parameters appended to a declaration are those of its plan, in the order of
`outPositions`. -/
theorem follows_declaration (hrec : func.receiver = none) (h : (lowerHead func).plan = some plan) :
    ∃ outs, (lowerHead func).func.params = func.params ++ outs ∧
      plan.Follows (outPositions (shapeOf func.results)) (Field.boundNames outs) := by
  obtain ⟨outs, hparams, hnames⟩ := params_of_lowerHead hrec
  refine ⟨outs, hparams, ReturnPlan.follows_of_forall₂ (nodup_names_of_plan h) ?_⟩
  rw [hnames, outPositions_eq, ← map_snd_outPairs, ← map_fst_outPairs func.results.length,
    forall₂_map_left_iff, forall₂_map_right_iff, forall₂_same,
    (plan_of_lowerHead h).2.2]
  intro pair hpair
  simpa [outPairs] using hpair

end Declarations

/-! ## Call sites -/

theorem forall₂_filterMap {α β : Type} {f : α → Option β} {l} (h : ∀ a ∈ l, (f a).isSome) :
    Forall₂ (fun a b => f a = some b) l (l.filterMap f) := by
  induction l with
  | nil => exact .nil
  | cons a l ih =>
    obtain ⟨b, hb⟩ := Option.isSome_iff_exists.1 (h a (by simp))
    rw [filterMap_cons_some hb]
    exact .cons hb (ih fun a ha => h a (by simp [ha]))

end ScriptLowering.Lowering

namespace ScriptLowering

open List

/-- No two plain functions of the file have the same name. -/
def SourceFile.UniqueNames (file : SourceFile) : Prop :=
  ((file.functions.filter fun func => func.receiver.isNone).map (·.name.val)).Nodup

instance (file : SourceFile) : Decidable file.UniqueNames :=
  inferInstanceAs (Decidable (Nodup _))

namespace Lowering

section Sites

variable {file : SourceFile} {func : FuncDecl} {env : Env} {plan : ReturnPlan}

theorem lookup_shapesOf (hunique : file.UniqueNames) (hfunc : func ∈ file.functions)
    (hrec : func.receiver = none) :
    (shapesOf file).lookup func.name.val = some (shapeOf func.results) := by
  have hmem : (func.name.val, shapeOf func.results) ∈ shapesOf file := by
    simp only [shapesOf, mem_map, mem_reverse, mem_filter]
    exact ⟨func, ⟨hfunc, by simp [hrec]⟩, rfl⟩
  have hnodup : ((shapesOf file).map Prod.fst).Nodup := by
    rw [shapesOf, map_map, map_reverse, nodup_reverse]
    exact hunique
  have hsome : ((shapesOf file).lookup func.name.val).isSome :=
    lookup_isSome_iff.2 ⟨_, hmem, by simp⟩
  obtain ⟨shape, hshape⟩ := Option.isSome_iff_exists.1 hsome
  obtain ⟨_, _, hsplit, -⟩ := lookup_eq_some_iff.1 hshape
  have hmem' : (func.name.val, shape) ∈ shapesOf file := by simp [hsplit]
  cases inj_on_of_nodup_map hnodup hmem hmem' rfl
  exact hshape

theorem nameBlanks_of_named {call place targets} (h : ∀ target ∈ targets, target.isBlank = false)
    (positions : List Nat) : nameBlanks env call place targets positions = pure (targets, []) := by
  induction positions with
  | nil => rfl
  | cons position positions ih =>
    unfold nameBlanks
    cases ht : targets[position]? with
    | none => exact ih
    | some target =>
      simp only [h target (mem_of_getElem? ht)]
      exact ih

/-- A call that binds all values of `func` to targets none of which is blank gets the addresses
of those at the positions in `order`, and is assigned to the first target if the first value is
still returned. -/
def Env.PassesInOrder (env : Env) (func : FuncDecl) (plan : ReturnPlan) (order : List Nat) :
    Prop :=
  ∀ (id : NodeId) (span callSpan place : Span) (args : List Expr) (spread : Bool)
    (first : Expr) (more : List Expr) (s : State),
    (first :: more).length = plan.total → (∀ target ∈ first :: more, target.isBlank = false) →
    ∃ addresses : List Expr,
      Forall₂ (fun p e => (first :: more)[p]?.map Expr.address = some e) order addresses ∧
      let call := Expr.call callSpan (.ident place func.name.val) (args ++ addresses) spread
      completeCall env ⟨id, span, .assign (first :: more) .assign
          [.call callSpan (.ident place func.name.val) args spread]⟩ s =
        .ok (some ⟨[], if plan.keepsFirst then .assign [first] .assign [call] else .expr call⟩, s)

theorem passesInOrder (hlookup : env.shapes.lookup func.name.val = some (shapeOf func.results))
    (hplan : (lowerHead func).plan = some plan) :
    env.PassesInOrder func plan (outPositions (shapeOf func.results)) := by
  intro id span callSpan place args spread first more s hlength hnamed
  obtain ⟨hcount, hkeeps, -⟩ := plan_of_lowerHead hplan
  refine ⟨(outPositions (shapeOf func.results)).filterMap
    fun p => (first :: more)[p]?.map Expr.address, forall₂_filterMap ?_, ?_⟩
  · intro p hp
    have hp : p < (first :: more).length := by
      have hmem := (kept_append_out_perm (shapeOf_pos func.results)).mem_iff.1
        (mem_append_right _ hp)
      rwa [mem_range, ← hcount, ← hlength] at hmem
    simp only [getElem?_eq_getElem hp, Option.map_some, Option.isSome_some]
  · have hshape : env.callShape (.call callSpan (.ident place func.name.val) args spread)
        (first :: more).length = shapeOf func.results := by
      simp only [Env.callShape, Expr.calleeName?, Expr.name?, Option.bind_some, hlookup]
      rw [if_pos (by rw [hlength, hcount])]
    have hmany : ¬ (first :: more).length ≤ 1 := by
      have := two_le_total hplan
      omega
    simp only [completeCall, hmany, if_false, hshape, nameBlanks_of_named hnamed, pure_bind]
    have hfirst : first.isBlank = false := hnamed first (by simp)
    rw [hkeeps]
    cases firstStays (shapeOf func.results) <;>
      simp only [Bool.false_eq_true, if_false, if_true, head?_cons, Option.filter_some,
        hfirst, Bool.not_false] <;> rfl

/-- What becomes of a return of a call, in a function with this plan. -/
theorem lowerReturn_call {name shape} (hlookup : env.shapes.lookup name = some shape)
    (htotal : 2 ≤ plan.total) (id : NodeId) (span callSpan place : Span) (args : List Expr)
    (spread : Bool) (s : State) :
    lowerReturn env plan ⟨id, span, .ret [.call callSpan (.ident place name) args spread]⟩ s =
      if s.settled.contains id then .ok (none, s)
      else match plan.forwarded? shape with
        | none => .ok (none, s)
        | some names =>
          let call :=
            Expr.call callSpan (.ident place name) (args ++ names.map (.ident span)) spread
          let settled := id :: s.settled
          if plan.keepsFirst then
            .ok (some (.enter ⟨id, span, .ret [call]⟩ []), { s with settled })
          else
            .ok (some (.enter ⟨s.nextId, span, .expr call⟩ [⟨id, span, .ret []⟩]),
              { s with settled, nextId := s.nextId + 1 }) := by
  -- one operand is fewer than the function has values, so the operands are not split up
  have hlength : ¬ 1 = plan.total := by omega
  have hget (f : State → LowerM (Option Step)) : (get >>= f) s = f s s := rfl
  simp only [lowerReturn, hget, length_singleton, hlength, if_false, isEmpty_cons,
    Bool.false_and, Bool.false_eq_true, Expr.name?, Option.bind_some, hlookup]
  cases s.settled.contains id with
  | true => rfl
  | false =>
    cases plan.forwarded? shape with
    | none => rfl
    | some names => cases plan.keepsFirst <;> rfl

theorem forwarded?_follows {shape : List Nat} {names} (hplan : (lowerHead func).plan = some plan)
    (h : plan.forwarded? shape = some names) : plan.Follows (outPositions shape) names := by
  simp only [ReturnPlan.forwarded?] at h
  split at h
  · rename_i hsame
    cases h
    have hsorted : (outPositions shape).mergeSort = plan.outs.map Prod.fst := by
      simp only [Bool.and_eq_true, beq_iff_eq] at hsame
      exact hsame.2
    refine ReturnPlan.follows_of_forall₂ (nodup_names_of_plan hplan)
      ((forall₂_filterMap fun p hp => ?_).imp fun p name hname => ?_)
    · have hmem : p ∈ plan.outs.map Prod.fst := hsorted ▸ mem_mergeSort.2 hp
      obtain ⟨pair, hpair, rfl⟩ := mem_map.1 hmem
      exact lookup_isSome_iff.2 ⟨pair, hpair, beq_self_eq_true _⟩
    · obtain ⟨_, _, hsplit, -⟩ := lookup_eq_some_iff.1 hname
      simp [hsplit]
  · cases h

/-- A call is forwarded when it has as many values as the function and both keep the first one,
or neither. -/
theorem forwarded?_isSome {shape} (hpos : ∀ arity ∈ shape, 0 < arity)
    (hplan : (lowerHead func).plan = some plan) (htotal : valueCount shape = plan.total)
    (hkeeps : firstStays shape = plan.keepsFirst) : (plan.forwarded? shape).isSome := by
  -- Both lists of positions complete the kept ones to the same range, so they are equal once
  -- they are in order.
  obtain ⟨hcount, hfirst, houts⟩ := plan_of_lowerHead hplan
  have hmoved : (movedEntries shape).flatMap Entry.positions = plan.outs.map Prod.fst := by
    have hown := kept_append_moved (shapeOf_pos func.results)
    rw [← hcount, ← htotal, ← kept_append_moved hpos, keptPositions, keptPositions, ← hfirst,
      ← hkeeps, append_cancel_left_eq] at hown
    rw [houts, map_fst_outPairs, hown]
  have hascending : ((movedEntries shape).flatMap Entry.positions).Pairwise (· ≤ ·) := by
    refine Pairwise.sublist (sublist_append_right (keptPositions shape) _) ?_
    rw [kept_append_moved hpos]
    exact pairwise_le_range
  have hsorted : (outPositions shape).mergeSort = plan.outs.map Prod.fst := by
    rw [← hmoved]
    refine Perm.eq_of_pairwise (fun _ _ _ _ => Nat.le_antisymm) ?_ hascending
      ((mergeSort_perm _ _).trans (outPositions_perm shape))
    exact (pairwise_mergeSort (by grind) (by grind) _).imp of_decide_eq_true
  simp [ReturnPlan.forwarded?, htotal, hkeeps, hsorted]

/-- A return of a call of `func` that is rewritten, in a function whose plan is `own`, passes on
the output parameters that `own` has for the positions in `order`. It is rewritten, unless it was
before, if the function has as many values and both keep the first one, or neither. -/
def Env.ForwardsInOrder (env : Env) (func : FuncDecl) (plan : ReturnPlan) (order : List Nat)
    (own : ReturnPlan) : Prop :=
  ∀ (id : NodeId) (span callSpan place : Span) (args : List Expr) (spread : Bool) (s : State),
    let stmt : Stmt := ⟨id, span, .ret [.call callSpan (.ident place func.name.val) args spread]⟩
    (∀ step s', lowerReturn env own stmt s = .ok (some step, s') →
      ∃ names, own.Follows order names ∧
        let call := Expr.call callSpan (.ident place func.name.val)
          (args ++ names.map (.ident span)) spread
        step = if own.keepsFirst then .enter ⟨id, span, .ret [call]⟩ []
          else .enter ⟨s.nextId, span, .expr call⟩ [⟨id, span, .ret []⟩]) ∧
    (id ∉ s.settled → own.total = plan.total → own.keepsFirst = plan.keepsFirst →
      ∃ step s', lowerReturn env own stmt s = .ok (some step, s'))

theorem forwardsInOrder {other own}
    (hlookup : env.shapes.lookup func.name.val = some (shapeOf func.results))
    (hplan : (lowerHead func).plan = some plan) (hown : (lowerHead other).plan = some own) :
    env.ForwardsInOrder func plan (outPositions (shapeOf func.results)) own := by
  intro id span callSpan place args spread s
  have hreturn := lowerReturn_call hlookup (two_le_total hown) id span callSpan place args spread s
  constructor
  · intro step s' h
    rw [hreturn] at h
    split at h
    · cases h
    split at h
    · cases h
    · rename_i names hnames
      refine ⟨names, forwarded?_follows hown hnames, ?_⟩
      cases hkeeps : own.keepsFirst <;> simp only [hkeeps] at h <;> cases h <;> rfl
  · intro hid htotal hkeeps
    obtain ⟨hcount, hfirst, -⟩ := plan_of_lowerHead hplan
    have hforwarded := forwarded?_isSome (shapeOf_pos func.results) hown
      (hcount.symm.trans htotal.symm) (hfirst.symm.trans hkeeps.symm)
    obtain ⟨names, hnames⟩ := Option.isSome_iff_exists.1 hforwarded
    rw [hreturn]
    cases own.keepsFirst <;> simp [hid, hnames]

/-- Declaration, call sites and forwarding returns agree on the calling convention. There is one
order of the positions that move such that the parameters appended to the declaration, the
addresses a call site passes and the output parameters a return passes on all stand for the
positions in that order. No position is left out, but for the first if it is still returned. -/
theorem calling_convention_agrees (hunique : file.UniqueNames) (hfunc : func ∈ file.functions)
    (hrec : func.receiver = none) (hvalues : 2 ≤ Field.totalArity func.results)
    (resolver : Resolver) (options : Options) :
    ∃ plan order, (lowerHead func).plan = some plan ∧
      plan.total = Field.totalArity func.results ∧
      (plan.keepsFirst = true ↔ (lowerHead func).func.results ≠ []) ∧
      ((if plan.keepsFirst then [0] else []) ++ order).Perm (range plan.total) ∧
      (∃ outs, (lowerHead func).func.params = func.params ++ outs ∧
        plan.Follows order (Field.boundNames outs)) ∧
      Env.PassesInOrder ⟨resolver, options, shapesOf file⟩ func plan order ∧
      ∀ other own, (lowerHead other).plan = some own →
        Env.ForwardsInOrder ⟨resolver, options, shapesOf file⟩ func plan order own := by
  obtain ⟨plan, hplan⟩ := Option.isSome_iff_exists.1 ((plan_isSome_iff func).2 hvalues)
  obtain ⟨htotal, hkeeps, -⟩ := plan_of_lowerHead hplan
  have hlookup := lookup_shapesOf hunique hfunc hrec
  refine ⟨plan, outPositions (shapeOf func.results), hplan, ?_, ?_, ?_,
    follows_declaration hrec hplan, ?_, ?_⟩
  · rw [htotal, totalArity_eq]
  · rw [hkeeps, Ne, ← List.isEmpty_iff, results_of_lowerHead]
    simp
  · rw [htotal, hkeeps]
    exact kept_append_out_perm (shapeOf_pos _)
  · exact passesInOrder hlookup hplan
  · exact fun other own hown => forwardsInOrder hlookup hplan hown

/-- The function `func survey() (ok int, low, high int, mean int)`. -/
def survey : FuncDecl where
  receiver := none
  name := ⟨"survey", ⟨0, 5, 11⟩⟩
  params := []
  results :=
    [⟨[⟨"ok", ⟨0, 16, 18⟩⟩], ⟨.named "int", ⟨0, 19, 22⟩⟩⟩,
      ⟨[⟨"low", ⟨0, 24, 27⟩⟩, ⟨"high", ⟨0, 29, 33⟩⟩], ⟨.named "int", ⟨0, 34, 37⟩⟩⟩,
      ⟨[⟨"mean", ⟨0, 39, 43⟩⟩], ⟨.named "int", ⟨0, 44, 47⟩⟩⟩]
  body := none
  span := ⟨0, 0, 48⟩

/-- The function `func relay() (int, int, int, int)`. -/
def relay : FuncDecl where
  receiver := none
  name := ⟨"relay", ⟨0, 54, 60⟩⟩
  params := []
  results := replicate 4 ⟨[], ⟨.named "int", ⟨0, 64, 67⟩⟩⟩
  body := none
  span := ⟨0, 49, 83⟩

/-- A file with both. -/
def surveying : SourceFile where
  package := none
  imports := []
  decls := [.func survey, .func relay]
  nextId := 0

/-- The targets of `a, b, c, d = survey()`. -/
def surveyed : List Expr := ["a", "b", "c", "d"].map (.ident default)

/-- The call site `a, b, c, d = survey()`, and `return survey()` in `relay`. -/
theorem calling_convention_of_survey :
    ∃ plan order, (lowerHead survey).plan = some plan ∧ (0 :: order).Perm (range 4) ∧
      (∃ addresses,
        Forall₂ (fun p e => surveyed[p]?.map Expr.address = some e) order addresses ∧
        completeCall ⟨.blind, {}, shapesOf surveying⟩
            ⟨0, default, .assign surveyed .assign
              [.call default (.ident default "survey") [] false]⟩ ⟨1, 0, [], []⟩ =
          .ok (some ⟨[], .assign [.ident default "a"] .assign
            [.call default (.ident default "survey") addresses false]⟩, ⟨1, 0, [], []⟩)) ∧
      ∃ own names, (lowerHead relay).plan = some own ∧ own.Follows order names ∧
        ∃ s', lowerReturn ⟨.blind, {}, shapesOf surveying⟩ own
            ⟨0, default, .ret [.call default (.ident default "survey") [] false]⟩
            ⟨1, 0, [], []⟩ =
          .ok (some (.enter ⟨0, default, .ret [.call default (.ident default "survey")
            (names.map (.ident default)) false]⟩ []), s') := by
  obtain ⟨plan, order, hplan, htotal, hkeeps, hperm, -, hpass, hforward⟩ :=
    calling_convention_agrees (by decide : surveying.UniqueNames)
      (.head _ : survey ∈ surveying.functions) rfl (by decide) .blind {}
  have hfirst : plan.keepsFirst = true := hkeeps.2 (cons_ne_nil _ _)
  have hfour : plan.total = 4 := htotal
  obtain ⟨addresses, haddresses, hcall⟩ := hpass 0 default default default [] false
    (.ident default "a") (["b", "c", "d"].map (.ident default)) ⟨1, 0, [], []⟩ hfour.symm
    (by decide)
  obtain ⟨own, hown⟩ := Option.isSome_iff_exists.1 ((plan_isSome_iff relay).2 (by decide))
  obtain ⟨hownTotal, hownFirst, -⟩ := plan_of_lowerHead hown
  obtain ⟨hstep, hrewritten⟩ := hforward relay own hown 0 default default default [] false
    ⟨1, 0, [], []⟩
  obtain ⟨step, s', hreturn⟩ := hrewritten (by simp) (hownTotal.trans hfour.symm)
    (hownFirst.trans hfirst.symm)
  obtain ⟨names, hnames, rfl⟩ := hstep step s' hreturn
  refine ⟨plan, order, hplan, ?_, ⟨addresses, haddresses, ?_⟩, own, names, hown, hnames, s', ?_⟩
  · rwa [hfirst, hfour] at hperm
  · rwa [hfirst] at hcall
  · rwa [hownFirst] at hreturn

end Sites

end Lowering

end ScriptLowering
