import ScriptLowering.Scope.Resolver

/-!
# Scope tables

What a file declares, and the types that follow from it. A binding is recorded with the span
of the scope that owns it and the offset where it becomes visible; a question at a place is
answered by the innermost visible binding. Types are inferred only as far as declarations,
literals, conversions and signatures in the same file allow.
-/

namespace ScriptLowering

/-- A name bound in some scope. -/
structure Binding where
  name : String
  type : TypeExpr
  scope : Span
  /-- Visible from this offset on. -/
  visibleFrom : Nat

namespace Binding

def isVisible (binding : Binding) (name : String) (place : Span) : Bool :=
  binding.name == name && binding.scope.contains place && binding.visibleFrom ≤ place.start

/-- `a` shadows `b`: its scope is narrower, or as wide and it comes later. -/
def shadows (a b : Binding) : Bool :=
  a.scope.width < b.scope.width ||
    (a.scope.width == b.scope.width && b.visibleFrom < a.visibleFrom)

/-- The first binding that no other one shadows. -/
def innermost? : List Binding → Option Binding
  | [] => none
  | first :: rest => some (rest.foldl (fun best b => if b.shadows best then b else best) first)

end Binding

/-- The declarations of one file. In the association lists a later entry stands in front and
hides an earlier one. -/
structure Table where
  /-- Result types of plain functions. -/
  functions : List (String × List TypeExpr) := []
  /-- Result types of methods, by receiver type and name. -/
  methods : List ((String × String) × List TypeExpr) := []
  types : List (String × TypeExpr) := []
  globals : List (String × TypeExpr) := []
  /-- Local names, in the order they were met. -/
  bindings : List Binding := []

/-- The types of a field list, one for each value. -/
def Field.flatTypes (fields : List Field) : List TypeExpr :=
  fields.flatMap fun field => List.replicate field.arity field.type.val

namespace Table

/-- Named types are followed at most this many times. -/
def indirectionLimit : Nat := 16

/-- Follow a named type through `steps` declarations at most. -/
def follow (table : Table) : (steps : Nat) → TypeExpr → TypeExpr
  | 0, type => type
  | steps + 1, .named name =>
    match table.types.lookup name with
    | some next => table.follow steps next
    | none => .named name
  | _ + 1, type => type

/-- The structure behind a named type. -/
def underlying (table : Table) (type : TypeExpr) : TypeExpr :=
  table.follow indirectionLimit type

/-- The type of the name visible at `place`: that of the innermost binding, else of a
package-level variable. -/
def lookup (table : Table) (name : String) (place : Span) : Option TypeExpr :=
  match Binding.innermost? (table.bindings.filter (·.isVisible name place)) with
  | some binding => some binding.type
  | none => table.globals.lookup name

/-- The type of a field of a struct, also through a pointer. -/
def fieldType (table : Table) (base : TypeExpr) (field : String) : Option TypeExpr :=
  let behind := match table.underlying base with
    | .pointer elem => table.underlying elem
    | type => type
  match behind with
  | .struct fields =>
    (fields.find? fun f => f.names.any (·.val == field)).map (·.type.val)
  | _ => none

/-- The type of an element of a map, array, pointer to array, or string. -/
def elementType (table : Table) (base : TypeExpr) : Option TypeExpr :=
  match table.underlying base with
  | .map _ elem => some elem
  | .array _ elem => some elem
  | .pointer inner =>
    match table.underlying inner with
    | .array _ elem => some elem
    | _ => none
  | .named name => if name == "string" then some (.named "byte") else none
  | _ => none

/-- The result numbered `index` of calling a value of this type. -/
def resultOf (table : Table) (index : Nat) (callee : Option TypeExpr) : Option TypeExpr := do
  match table.underlying (← callee) with
  | .func _ results => (Field.flatTypes results)[index]?
  | _ => none

/-- The result of calling a builtin function or a function value named `name`; `callee` is the
type of the value and `first` that of the first argument. -/
def builtinResult (table : Table) (name : String) (args : List Expr)
    (callee first : Unit → Option TypeExpr) : Option TypeExpr :=
  match name with
  | "len" | "cap" | "copy" => some (.named "int")
  | "make" =>
    match args with
    | .type _ type :: _ => some type
    | _ => none
  | "new" =>
    match args with
    | .type _ type :: _ => some (.pointer type)
    | .ident _ name :: _ => some (.pointer (.named name))
    | _ => none
  | "append" => first ()
  | _ => table.resultOf 0 (callee ())

/-- The type of a literal. -/
def literalType : Literal → Option TypeExpr
  | .int _ => some (.named "int")
  | .float _ => some (.named "float64")
  | .char _ => some (.named "rune")
  | .string _ => some (.named "string")
  | .imaginary _ => none

/-- The type of an identifier. -/
def identType (table : Table) (place : Span) (name : String) : Option TypeExpr :=
  match name with
  | "true" | "false" => some (.named "bool")
  | "nil" | "_" => none
  | _ => table.lookup name place

/-- The type of an operation on an operand of type `operand`. -/
def unaryType (table : Table) (op : UnaryOp) (operand : Option TypeExpr) : Option TypeExpr :=
  match op with
  | .not => some (.named "bool")
  | .plus | .neg | .complement => operand
  | .addressOf => operand.map .pointer
  | .deref => do
    match table.underlying (← operand) with
    | .pointer elem => some elem
    | _ => none
  | .receive => do
    match table.underlying (← operand) with
    | .chan _ elem => some elem
    | _ => none

def isLiteral : Expr → Bool
  | .lit .. => true
  | _ => false

mutual

/-- The type of the value numbered `index` of an expression at `place`. Most expressions have
one value; a call may have several, and a map read, a type assertion and a receive have a
second one that tells whether they succeeded. -/
def valueType (table : Table) (place : Span) : Expr → (index : Nat) → Option TypeExpr
  | .call _ callee args _, index =>
    table.callType place index args (fun _ => table.valueType place callee 0)
      (fun _ => table.firstType place args) callee
  | .paren _ inner, index => table.valueType place inner index
  | .index _ base _, 0 => (table.valueType place base 0).bind table.elementType
  | .index _ base _, 1 =>
    (table.valueType place base 0).bind fun type =>
      if (table.underlying type).isMap then some (.named "bool") else none
  | .typeAssert _ _ type, 0 => type
  | .typeAssert .., 1 => some (.named "bool")
  | .unary _ op operand, 0 => table.unaryType op (table.valueType place operand 0)
  | .unary _ .receive _, 1 => some (.named "bool")
  | .ident _ name, 0 => table.identType place name
  | .lit _ value, 0 => literalType value
  | .composite _ type _, 0 => type
  | .funcLit _ params results _, 0 => some (.func params results)
  | .selector _ base member, 0 =>
    (table.valueType place base 0).bind fun type => table.fieldType type member.val
  | .slice _ base _ _ _, 0 => table.valueType place base 0
  | .binary _ op left right, 0 =>
    if op.isComparison || op.isShortCircuit then some (.named "bool")
    else if op == .shiftLeft || op == .shiftRight then table.valueType place left 0
    -- An untyped literal takes the type of the other operand.
    else if isLiteral left then
      table.valueType place right 0 <|> table.valueType place left 0
    else table.valueType place left 0 <|> table.valueType place right 0
  | _, _ => none

/-- The type of the first expression of a list. -/
def firstType (table : Table) (place : Span) : List Expr → Option TypeExpr
  | [] => none
  | e :: _ => table.valueType place e 0

/-- The result numbered `index` of calling an expression: a conversion, a function of the
file, a builtin function, a method, or a value of function type. -/
def callType (table : Table) (place : Span) (index : Nat) (args : List Expr)
    (callee first : Unit → Option TypeExpr) : Expr → Option TypeExpr
  | .type _ type => if index = 0 then some type else none
  | .paren _ inner => table.callType place index args callee first inner
  | .ident _ name =>
    match table.functions.lookup name, table.lookup name place with
    | some results, none => results[index]?
    | _, _ =>
      if 0 < index then table.resultOf index (callee ())
      else table.builtinResult name args callee first
  | .selector _ base member =>
    (table.valueType place base 0).bind fun receiver =>
      let named := match receiver with
        | .pointer elem => elem
        | type => type
      match named with
      | .named name => (table.methods.lookup (name, member.val)).bind (·[index]?)
      | _ => none
  | _ => table.resultOf index (callee ())

end

/-- A type of this table as an answer. -/
def resolved (table : Table) (type : TypeExpr) : ResolvedType :=
  ⟨type, (table.underlying type).isMap⟩

/-- The resolver that answers from the table. -/
def resolver (table : Table) : Resolver where
  typeOf e place := (table.valueType place e 0).map table.resolved
  resultType e index place := (table.valueType place e index).map table.resolved

end Table

end ScriptLowering
