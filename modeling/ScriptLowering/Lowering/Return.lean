import ScriptLowering.Lowering.Results

/-!
# Return statements

In a function whose results moved, a return stores each of those values through its output
parameter and returns the first one if it stayed. A call that moved the same values is given
the output parameters and does the storing itself.
-/

namespace ScriptLowering.Lowering

/-- What happens next to a statement of a sequence. -/
inductive Step where
  /-- Visit these statements in its place, all of them again. -/
  | revisit (stmts : List Stmt)
  /-- Lower the parts of `stmt`, which stands in its place, and go on with `rest`. -/
  | enter (stmt : Stmt) (rest : List Stmt)

/-- The statement `*out = value` for a return at `span`. -/
def storeOut (span : Span) (out : String) (value : Expr) : LowerM Stmt :=
  newStmt (.assign [.unary value.span .deref (.ident value.span out)] .assign [value]) span

/-- Mark a return statement as following its plan. -/
def settle (id : NodeId) : LowerM Unit :=
  modify fun s => { s with settled := id :: s.settled }

/-- The stores of the values that moved, by position. -/
def storeValues (span : Span) (values : List Expr) : List (Nat × String) → LowerM (List Stmt)
  | [] => return []
  | (position, out) :: outs => do
    match values[position]? with
    | none => storeValues span values outs
    | some value =>
      let store ← storeOut span out value
      return store :: (← storeValues span values outs)

/-- The stores of named results, the last result first. -/
def storeNamed (span : Span) : List (String × String) → LowerM (List Stmt)
  | [] => return []
  | (out, local_) :: named => do
    let store ← storeOut span out (.ident span local_)
    return (← storeNamed span named) ++ [store]

/-- The output parameters that a call of the given shape takes, if it moves exactly the values
that the plan moves. -/
def ReturnPlan.forwarded? (plan : ReturnPlan) (shape : List Nat) : Option (List String) :=
  let positions := outPositions shape
  if valueCount shape = plan.total && firstStays shape == plan.keepsFirst &&
      positions.mergeSort == plan.outs.map (·.1) then
    some (positions.filterMap fun position => plan.outs.lookup position)
  else none

/-- Lower a return statement under the plan of its function; nothing when it does not have to
change. -/
def lowerReturn (env : Env) (plan : ReturnPlan) (stmt : Stmt) : LowerM (Option Step) := do
  let .ret values := stmt.form | return none
  if (← get).settled.contains stmt.id then return none
  let bare : Stmt := ⟨stmt.id, stmt.span, .ret []⟩
  if values.length = plan.total then
    let stores ← storeValues stmt.span values plan.outs
    settle stmt.id
    let kept := values.take (if plan.keepsFirst then 1 else 0)
    return some (.revisit (stores ++ [⟨stmt.id, stmt.span, .ret kept⟩]))
  if values.isEmpty && !plan.named.isEmpty then
    let stores ← storeNamed stmt.span plan.named
    settle stmt.id
    return some (.revisit (stores ++ [bare]))
  let [.call span callee args spread] := values | return none
  let some shape := callee.name?.bind fun name => env.shapes.lookup name | return none
  let some outs := plan.forwarded? shape | return none
  settle stmt.id
  let call := Expr.call span callee (args ++ outs.map (.ident stmt.span)) spread
  if plan.keepsFirst then return some (.enter ⟨stmt.id, stmt.span, .ret [call]⟩ [])
  else return some (.enter (← newStmt (.expr call) stmt.span) [bare])

end ScriptLowering.Lowering
