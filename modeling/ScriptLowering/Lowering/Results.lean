import ScriptLowering.Lowering.Context

/-!
# Result lists

The target grammar returns one value at most. All results of a function but a first, single
one become output parameters: pointers appended to the parameter list, the last entry first.
Declarations, call sites and return statements all follow `Entry.moves` and `outPositions`, so
they agree on the convention.
-/

namespace ScriptLowering.Lowering

/-- One entry of a result list: its index, the position of its first value, and how many
values it has. -/
structure Entry where
  index : Nat
  start : Nat
  arity : Nat
deriving DecidableEq, Repr, Inhabited

/-- The entries of a list with these arities, from a given index and position on. -/
def entriesFrom (index start : Nat) : (shape : List Nat) → List Entry
  | [] => []
  | arity :: shape => ⟨index, start, arity⟩ :: entriesFrom (index + 1) (start + arity) shape

def entries (shape : List Nat) : List Entry := entriesFrom 0 0 shape

namespace Entry

/-- An entry becomes output parameters, unless it is the first and has one value. -/
def moves (entry : Entry) : Bool := 1 < entry.arity || entry.index != 0

/-- The positions of its values. -/
def positions (entry : Entry) : List Nat := List.range' entry.start entry.arity

/-- The name of the output parameter for the value at `offset` of an entry of a list with
`count` entries. -/
def outName (count : Nat) (entry : Entry) (offset : Nat) : String :=
  if 1 < entry.arity then s!"_{count - entry.index}_{offset + 1}"
  else s!"_{count - entry.index}"

/-- The names of its output parameters, in order. -/
def outNames (count : Nat) (entry : Entry) : List String :=
  (List.range entry.arity).map (entry.outName count)

end Entry

/-- The first value stays a result. -/
def firstStays : (shape : List Nat) → Bool
  | [] => false
  | arity :: _ => !(Entry.moves ⟨0, 0, arity⟩)

/-- The positions of the values that move, in the order of their output parameters. -/
def outPositions (shape : List Nat) : List Nat :=
  ((entries shape).reverse.filter Entry.moves).flatMap Entry.positions

/-- The number of values of a list with these arities. -/
def valueCount (shape : List Nat) : Nat := shape.foldr (· + ·) 0

/-- The arities of a result list. -/
def shapeOf (results : List Field) : List Nat := results.map Field.arity

/-- The shapes of the plain functions of a file; a later function of the same name counts. -/
def shapesOf (file : SourceFile) : List (String × List Nat) :=
  (file.functions.filter fun func => func.receiver.isNone).reverse.map fun func =>
    (func.name.val, shapeOf func.results)

/-- How the results of a function were redistributed, as its return statements need it. -/
structure ReturnPlan where
  /-- The number of values before. -/
  total : Nat
  /-- The value at position 0 is still returned. -/
  keepsFirst : Bool
  /-- Position and output parameter of every value that moved, ascending. -/
  outs : List (Nat × String)
  /-- Output parameter and variable of every named result that moved, ascending. -/
  named : List (String × String)
deriving DecidableEq, Repr, Inhabited

/-- A function after its head was lowered. -/
structure LoweredHead where
  func : FuncDecl
  /-- Present when results moved. -/
  plan : Option ReturnPlan
  /-- Variables that stand in for named results that moved. -/
  locals : List Var

/-- The output parameter field of an entry. Each parameter stands where its result name was,
or at the type when there was none. -/
def outField (count : Nat) (entry : Entry) (field : Field) : Field :=
  { names := (entry.outNames count).zipIdx.map fun (name, offset) =>
      ⟨name, (field.names[offset]?.map (·.span)).getD field.type.span⟩
    type := ⟨.pointer field.type.val, field.type.span⟩ }

/-- Make the receiver a first parameter, and all results but a first, single one output
parameters. A result that had a name keeps it as a local variable, so that the body can go on
reading and writing it. -/
def lowerHead (func : FuncDecl) : LoweredHead :=
  let count := func.results.length
  let results := (entries (shapeOf func.results)).zip func.results
  let moved := results.filter fun (entry, _) => entry.moves
  let kept := results.filter fun (entry, _) => !entry.moves
  let outs := moved.flatMap fun (entry, _) => entry.positions.zip (entry.outNames count)
  let named := moved.flatMap fun (entry, field) =>
    (entry.outNames count).zip (field.names.map (·.val))
  let locals := moved.flatMap fun (_, field) =>
    field.names.map fun name => (name.val, field.type.val)
  let plan :=
    if outs.isEmpty then none
    else some { total := Field.totalArity func.results, keepsFirst := !kept.isEmpty, outs, named }
  { func := { func with
      receiver := none
      params := func.receiver.getD [] ++ func.params ++
        moved.reverse.map fun (entry, field) => outField count entry field
      results := kept.map (·.2) }
    plan
    locals }

end ScriptLowering.Lowering
