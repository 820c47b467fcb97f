import ScriptLowering.Source.Span
import ScriptLowering.Tree.Operator

/-!
# Syntax trees

A file is a list of declarations over mutually nested expressions, written types and
statements. A statement carries an identity, so that two statements that print alike can be
told apart; expressions carry the place they stand at.
-/

namespace ScriptLowering

/-- Identity of a statement within one file. -/
abbrev NodeId := Nat

mutual

/-- Expressions. The first field is the place of the whole expression. -/
inductive Expr where
  | ident (span : Span) (name : String)
  | lit (span : Span) (value : Literal)
  /-- A composite literal; nested ones may leave their type out. -/
  | composite (span : Span) (type : Option TypeExpr) (elems : List Expr)
  | keyValue (span : Span) (key value : Expr)
  | funcLit (span : Span) (params results : List Field) (body : Block)
  | paren (span : Span) (inner : Expr)
  | selector (span : Span) (base : Expr) (member : Name)
  | index (span : Span) (base key : Expr)
  | slice (span : Span) (base : Expr) (low high max : Option Expr)
  /-- A type assertion; without a type it is the guard of a type switch. -/
  | typeAssert (span : Span) (base : Expr) (type : Option TypeExpr)
  | call (span : Span) (callee : Expr) (args : List Expr) (spread : Bool)
  | unary (span : Span) (op : UnaryOp) (operand : Expr)
  | binary (span : Span) (op : BinaryOp) (left right : Expr)
  /-- A type where an expression is expected, as in a conversion. -/
  | type (span : Span) (type : TypeExpr)

/-- Types as written. -/
inductive TypeExpr where
  | named (name : String)
  | qualified (package name : String)
  | pointer (elem : TypeExpr)
  /-- An array, or a slice when the length is absent. -/
  | array (length : Option Expr) (elem : TypeExpr)
  | map (key elem : TypeExpr)
  | chan (direction : ChannelDirection) (elem : TypeExpr)
  | func (params results : List Field)
  | struct (fields : List Field)
  /-- Methods are named entries of function type, embedded interfaces unnamed ones. -/
  | interface (methods : List Field)
  /-- The type of a last parameter that takes any number of arguments. -/
  | variadic (elem : TypeExpr)

/-- One entry of a parameter, result, receiver or struct list: any number of names that share
a type. -/
structure Field where
  names : List Name
  type : Located TypeExpr

/-- A braced statement sequence. -/
structure Block where
  stmts : List Stmt
  span : Span

/-- A statement with its identity. -/
structure Stmt where
  id : NodeId
  span : Span
  form : StmtForm

/-- The forms of a statement. -/
inductive StmtForm where
  | decl (decl : GenDecl)
  | empty
  | labeled (label : Name) (stmt : Stmt)
  | expr (expr : Expr)
  | send (chan value : Expr)
  | incDec (expr : Expr) (increments : Bool)
  | assign (targets : List Expr) (op : AssignOp) (values : List Expr)
  | go (call : Expr)
  | defer (call : Expr)
  | ret (values : List Expr)
  | jump (jump : Jump) (label : Option Name)
  | block (block : Block)
  | cond (init : Option Stmt) (test : Expr) (body : Block) (otherwise : Option Stmt)
  | switch (init : Option Stmt) (tag : Option Expr) (clauses : List CaseClause)
  | typeSwitch (init : Option Stmt) (guard : Stmt) (clauses : List CaseClause)
  | select (clauses : List CommClause)
  | loop (init : Option Stmt) (test : Option Expr) (post : Option Stmt) (body : Block)
  | range (key value : Option Expr) (defines : Bool) (subject : Expr) (body : Block)

/-- An arm of a switch; the default arm has no expressions. -/
structure CaseClause where
  exprs : Option (List Expr)
  body : List Stmt
  span : Span

/-- An arm of a select; the default arm has no communication. -/
structure CommClause where
  comm : Option Stmt
  body : List Stmt
  span : Span

/-- A variable, constant or type declaration, possibly with several specifications. -/
structure GenDecl where
  keyword : DeclKeyword
  specs : List Spec
  span : Span

/-- One specification of a declaration. -/
inductive Spec where
  | value (names : List Name) (type : Option (Located TypeExpr)) (values : List Expr)
  | typeName (name : Name) (isAlias : Bool) (type : Located TypeExpr)

end

instance : Inhabited Expr := ⟨.ident .origin "_"⟩

instance : Inhabited TypeExpr := ⟨.named "_"⟩

instance : Inhabited Stmt := ⟨⟨0, .origin, .empty⟩⟩

/-- A function declaration. A receiver list is absent for a plain function; legal input has
one receiver. -/
structure FuncDecl where
  receiver : Option (List Field)
  name : Name
  params : List Field
  results : List Field
  body : Option Block
  span : Span

/-- Top-level declarations. -/
inductive Decl where
  | func (decl : FuncDecl)
  | gen (decl : GenDecl)

/-- An import; the path keeps its quotes. -/
structure Import where
  localName : Option String
  path : String
  span : Span
deriving DecidableEq, Repr, Inhabited

/-- A parsed source file. Every statement identity in it is below `nextId`. -/
structure SourceFile where
  package : Option Name
  imports : List Import
  decls : List Decl
  nextId : NodeId

namespace Expr

/-- The place of an expression. -/
def span : Expr → Span
  | ident s .. | lit s .. | composite s .. | keyValue s .. | funcLit s .. | paren s ..
  | selector s .. | index s .. | slice s .. | typeAssert s .. | call s .. | unary s ..
  | binary s .. | type s .. => s

/-- The blank identifier. -/
def blank (span : Span) : Expr := .ident span "_"

def name? : Expr → Option String
  | ident _ name => some name
  | _ => none

def isBlank (e : Expr) : Bool := e.name? == some "_"

/-- The function a plain call names. -/
def calleeName? : Expr → Option String
  | call _ callee _ _ => callee.name?
  | _ => none

/-- The address of `target`, at the same place. -/
def address (target : Expr) : Expr := .unary target.span .addressOf target

/-- A call of the function `name`, all of it at `span`. -/
def callOf (name : String) (args : List Expr) (span : Span) : Expr :=
  .call span (.ident span name) args false

end Expr

namespace TypeExpr

def isPointer : TypeExpr → Bool
  | pointer _ => true
  | _ => false

def isMap : TypeExpr → Bool
  | map .. => true
  | _ => false

end TypeExpr

namespace Field

/-- An entry without names. -/
def unnamed (type : Located TypeExpr) : Field := ⟨[], type⟩

/-- The number of values an entry stands for; an unnamed entry is one value. -/
def arity (field : Field) : Nat := max field.names.length 1

/-- The number of values of a whole list. -/
def totalArity (fields : List Field) : Nat := fields.foldr (fun field n => field.arity + n) 0

/-- The names bound by a list, in order. -/
def boundNames (fields : List Field) : List String :=
  fields.flatMap fun field => field.names.map (·.val)

end Field

namespace SourceFile

/-- Take an unused identity. -/
def takeId (file : SourceFile) : NodeId × SourceFile :=
  (file.nextId, { file with nextId := file.nextId + 1 })

def functions (file : SourceFile) : List FuncDecl :=
  file.decls.filterMap fun
    | .func decl => some decl
    | .gen _ => none

/-- The first function of that name. -/
def function? (file : SourceFile) (name : String) : Option FuncDecl :=
  file.functions.find? fun decl => decl.name.val == name

end SourceFile

end ScriptLowering
