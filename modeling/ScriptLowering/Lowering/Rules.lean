import ScriptLowering.Lowering.Extract
import ScriptLowering.Lowering.Results
import ScriptLowering.Tree.Printer

/-!
# Rules for a single statement

Map subscripts become calls of the container library, and tuple assignments become calls with
output arguments. Each rule looks at one statement and gives its new form with the
declarations it needs in front, or nothing when it does not apply; none applies to what it
made itself.

`declared` holds the names already declared in the scope of the statement, which a definition
there only reassigns.

A whole statement that reads or writes an element becomes one call. A read anywhere else is
first moved into a temporary in front of the statement, and a compound update reads into a
temporary and writes the new value back.
-/

namespace ScriptLowering.Lowering

/-- `e` is known to be an element of a container, at the place of the statement. -/
def Env.isElement (env : Env) (place : Span) (e : Expr) : Bool :=
  env.resolver.isContainerRead place e

/-- An element is read somewhere in `e`, outside function literals. -/
def Env.readsElement (env : Env) (place : Span) (e : Expr) : Bool :=
  (extract (env.isElement place) "_" false e).isSome

/-- The call that reads the element `base[key]` into `target`. -/
def Env.readCall (env : Env) (base key target : Expr) (span : Span) : Expr :=
  .callOf env.options.containerGet [base, key, target.address] span

/-- The call that writes `value` to the element `base[key]`. -/
def Env.writeCall (env : Env) (base key value : Expr) (span : Span) : Expr :=
  .callOf env.options.containerSet [base, key, value] span

/-! ## What a statement will need -/

/-- The rules would declare variables in front of the statement. -/
def Env.needsDeclarations (env : Env) (stmt : Stmt) : Bool :=
  match stmt.form with
  | .assign targets op [value] =>
    let defines := op == .define
    if env.isElement stmt.span value then defines || targets.head?.any Expr.isBlank
    else 1 < targets.length && (defines || targets.any Expr.isBlank)
  | _ => false

/-- The statement updates an element in place, or reads one where a temporary has to be put
in front. -/
def Env.hasContainerWork (env : Env) (stmt : Stmt) : Bool :=
  let isRead := env.isElement stmt.span
  let updates := match stmt.form with
    | .incDec e _ => isRead e
    | .assign targets op _ => op.combines?.isSome && targets.any isRead
    | _ => false
  updates || (extractForm isRead "_" stmt.form).isSome

/-- The rules would put something in front of the statement, if they put anything there. -/
def Env.needsSplice (env : Env) (stmt : Stmt) : Bool :=
  env.needsDeclarations stmt || env.hasContainerWork stmt

/-! ## Containers -/

/-- `m[k] = v` becomes a call that writes the element. -/
def writeElement (env : Env) (stmt : Stmt) : Option Replacement :=
  match stmt.form with
  | .assign [.index span base key] .assign [value] =>
    if env.isElement stmt.span (.index span base key) then
      some { form := .expr (env.writeCall base key value stmt.span) }
    else none
  | _ => none

/-- The report of a two-valued read whose operand is not known to be a map. -/
def unknownMap (base : Expr) : Diagnostic :=
  (Diagnostic.error .typeResolution s!"cannot tell whether '{base.render 0}' is a map"
    base.span).withHelp "declare the map with an explicit map type"

/-- The variable that receives the element `value`, with what has to be declared for it. A blank
one gets a name; any other is declared only when the statement defines it. -/
def readTarget (env : Env) (declared : List String) (defines : Bool) (value target : Expr)
    (place : Span) : LowerM (Expr × List Var) := do
  if target.isBlank then
    let type ← requireType (env.resolver.typeOf value place) "the map element" value.span
    let name ← newName env
    return (.ident target.span name, [(name, type)])
  else if defines && !(target.name?.any declared.contains) then
    let type ← requireType (env.resolver.typeOf value place) "the map element" value.span
    return (target, [(target.name?.getD "", type)])
  else return (target, [])

/-- What has to be declared for the flag of a two-valued read. -/
def flagVars (declared : List String) (defines : Bool) (flag? : Option Expr) : List Var :=
  match flag?.bind Expr.name? with
  | some name => if defines && !declared.contains name then [(name, .named "bool")] else []
  | none => []

/-- The read of `base[key]` into `target`, which may also set a flag. -/
def Env.readForm (env : Env) (base key target : Expr) (flag? : Option Expr) (span : Span) :
    StmtForm :=
  let call := env.readCall base key target span
  match flag? with
  | some flag => .assign [flag] .assign [call]
  | none => .expr call

/-- The read of the element `value`, which is `base[key]`, into `first`, with a flag for its
presence. Without a flag the statement may turn out not to read a container. -/
def readInto (env : Env) (declared : List String) (stmt : Stmt) (defines : Bool)
    (value base key first : Expr) (second? : Option Expr) : LowerM (Option Replacement) := do
  if env.isElement stmt.span value then
    let (target, vars) ← readTarget env declared defines value first stmt.span
    let flag? := second?.filter fun target => !target.isBlank
    let before ← declareAny (vars ++ flagVars declared defines flag?) stmt.span
    return some { before, form := env.readForm base key target flag? stmt.span }
  else if second?.isSome then fail (unknownMap base)
  else return none

/-- `v, ok := m[k]`, with or without `ok`, defining or assigning, becomes a call that reads
the element into `v`. Names it defines are declared in front; a blank `v` gets a name. -/
def readElement (env : Env) (declared : List String) (stmt : Stmt) :
    LowerM (Option Replacement) :=
  match stmt.form with
  | .assign targets op [.index span base key] =>
    let read := readInto env declared stmt (op == .define) (.index span base key) base key
    if op.combines?.isSome then return none
    else match targets with
      | [first] => read first none
      | [first, second] => read first (some second)
      | _ => return none
  | _ => return none

/-- The target, operator and operand of a compound update of an element. -/
def elementUpdate? (env : Env) (stmt : Stmt) : Option (Expr × BinaryOp × Expr) :=
  match stmt.form with
  | .incDec e increments =>
    if env.isElement stmt.span e then
      some (e, if increments then .add else .sub, .lit e.span (.int "1"))
    else none
  | .assign [target] op [value] => do
    let op ← op.combines?
    if env.isElement stmt.span target then some (target, op, value) else none
  | _ => none

/-- `m[k] op= v` becomes a call that writes `t op v`, after a read of the element into a new
variable `t`. The container and the key are then evaluated twice and must be stable. -/
def updateElement (env : Env) (stmt : Stmt) : LowerM (Option Replacement) := do
  let some (target, op, value) := elementUpdate? env stmt | return none
  if !isStable target then
    fail ((Diagnostic.unsupported .mapSubscript target.span).withNote
      "the map and key of an updated element are evaluated twice")
  let type ← requireType (env.resolver.typeOf target stmt.span) "the map element" target.span
  let .index _ base key := target | return none
  let temp ← newName env
  let temporary := Expr.ident base.span temp
  let read := env.readCall base key temporary stmt.span
  let updated := Expr.binary stmt.span op temporary value
  let declaration ← declareVars [(temp, type)] stmt.span
  let reading ← newStmt (.expr read) stmt.span
  return some
    { before := [declaration, reading], form := .expr (env.writeCall base key updated stmt.span) }

/-- A read that moves in front of the operator that guarded it. -/
def unguardedRead (span : Span) : Diagnostic :=
  (Diagnostic.warning "container read now runs before the short-circuit operator guarding it"
    span).withHelp "the element is read even when the left operand decides the result"

/-- A read inside a larger expression moves into a new variable in front of the statement; one
read at a time, the outermost first. -/
def hoistRead (env : Env) (stmt : Stmt) : LowerM (Option Replacement) := do
  let temp := env.options.discardName (← get).discards
  let some found := extractForm (env.isElement stmt.span) temp stmt.form | return none
  let _ ← newName env
  let read := found.read
  let type ← requireType (env.resolver.typeOf read stmt.span) "the map element" read.span
  if found.guarded then warn (unguardedRead read.span)
  let .index _ base key := read | return none
  let call := env.readCall base key (.ident read.span temp) read.span
  let declaration ← declareVars [(temp, type)] stmt.span
  let reading ← newStmt (.expr call) stmt.span
  return some { before := [declaration, reading], form := found.rest }

/-! ## Tuples -/

/-- One target of a tuple definition, with what has to be declared for it. A blank one gets a
name; `result` is the type of the value it receives, if known. -/
def defineTarget (env : Env) (declared : List String) (result : Option ResolvedType)
    (place : Span) (target : Expr) : LowerM (Expr × List Var) := do
  if target.isBlank then
    let type ← requireType result "the discarded value" target.span
    let name ← newName env
    return (.ident target.span name, [(name, type)])
  else match target.name? with
    | none => return (target, [])
    | some name =>
      if declared.contains name then return (target, [])
      else
        let type ← requireType (env.resolver.typeOf target place <|> result) s!"'{name}'"
          target.span
        return (target, [(name, type)])

/-- The targets of a tuple definition with blank ones named, and the variables to declare. -/
def defineTargets (env : Env) (declared : List String) (value : Expr) (place : Span) :
    (position : Nat) → List Expr → LowerM (List Expr × List Var)
  | _, [] => return ([], [])
  | position, target :: targets => do
    let result := env.resolver.resultType value position place
    let (target, vars) ← defineTarget env declared result place target
    let (targets, moreVars) ← defineTargets env declared value place (position + 1) targets
    return (target :: targets, vars ++ moreVars)

/-- `a, b := f()` becomes declarations of the new names and `a, b = f()`. -/
def splitDefinition (env : Env) (declared : List String) (stmt : Stmt) :
    LowerM (Option Replacement) := do
  match stmt.form with
  | .assign targets .define [value] =>
    if targets.length ≤ 1 then return none
    let (targets, vars) ← defineTargets env declared value stmt.span 0 targets
    return some { before := ← declareAny vars stmt.span, form := .assign targets .assign [value] }
  | _ => return none

/-- The shape of the results of a call that binds `count` values: the declared one if the
function is known and fits, else single values. -/
def Env.callShape (env : Env) (call : Expr) (count : Nat) : List Nat :=
  match call.calleeName?.bind fun name => env.shapes.lookup name with
  | some shape => if valueCount shape = count then shape else List.replicate count 1
  | none => List.replicate count 1

/-- The targets at `positions` with blank ones named, in that order, and the variables to
declare. -/
def nameBlanks (env : Env) (call : Expr) (place : Span) (targets : List Expr) :
    (positions : List Nat) → LowerM (List Expr × List Var)
  | [] => return (targets, [])
  | position :: positions => do
    match targets[position]? with
    | none => nameBlanks env call place targets positions
    | some target =>
      if target.isBlank then
        let type ← requireType (env.resolver.resultType call position place)
          "the discarded value" target.span
        let name ← newName env
        let (targets, vars) ← nameBlanks env call place
          (targets.set position (.ident target.span name)) positions
        return (targets, (name, type) :: vars)
      else nameBlanks env call place targets positions

/-- `a, b, c = f(x)` becomes `a = f(x, &c, &b)`: the targets that output parameters stand for
are passed by address, in the order of those parameters. -/
def completeCall (env : Env) (stmt : Stmt) : LowerM (Option Replacement) := do
  match stmt.form with
  | .assign targets .assign [.call span callee args spread] =>
    if targets.length ≤ 1 then return none
    let call := Expr.call span callee args spread
    let shape := env.callShape call targets.length
    let positions := outPositions shape
    let (targets, vars) ← nameBlanks env call stmt.span targets positions
    let outs := positions.filterMap fun position => targets[position]?.map Expr.address
    let call := Expr.call span callee (args ++ outs) spread
    let first? := if firstStays shape then targets.head?.filter (!·.isBlank) else none
    let form := match first? with
      | some first => StmtForm.assign [first] .assign [call]
      | none => .expr call
    return some { before := ← declareAny vars stmt.span, form }
  | _ => return none

/-! ## All of them -/

/-- Try `rule` when the rules before it did not apply. -/
def orTry (result : Option Replacement) (rule : LowerM (Option Replacement)) :
    LowerM (Option Replacement) :=
  match result with
  | some replacement => return some replacement
  | none => rule

/-- The first rule that applies to a statement. -/
def replaceStmt (env : Env) (declared : List String) (stmt : Stmt) :
    LowerM (Option Replacement) := do
  let result := writeElement env stmt
  let result ← orTry result (readElement env declared stmt)
  let result ← orTry result (splitDefinition env declared stmt)
  let result ← orTry result (completeCall env stmt)
  let result ← orTry result (updateElement env stmt)
  orTry result (hoistRead env stmt)

end ScriptLowering.Lowering
