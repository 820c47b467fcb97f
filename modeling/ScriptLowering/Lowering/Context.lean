import ScriptLowering.Diagnostic
import ScriptLowering.Scope.Resolver

/-!
# The setting of a lowering

What stays fixed during a run (types, names to write, result shapes), what changes (identities,
numbering of synthesized names, warnings), and the elementary steps.
-/

namespace ScriptLowering.Lowering

/-- The names a lowering writes into its output. -/
structure Options where
  /-- Library function that reads a container element into a variable and tells whether it was
  there. -/
  containerGet : String := "containerGet"
  /-- Library function that writes a container element. -/
  containerSet : String := "containerSet"
  /-- What the names of synthesized variables begin with. -/
  discardPrefix : String := "_unused"
deriving DecidableEq, Repr, Inhabited

/-- What stays fixed while a file is lowered. -/
structure Env where
  resolver : Resolver
  options : Options
  /-- For each plain function of the file, the number of values of each of its result entries
  as declared. -/
  shapes : List (String × List Nat)

/-- What changes while a file is lowered. -/
structure State where
  nextId : NodeId
  /-- Number of synthesized variables so far. -/
  discards : Nat := 0
  warnings : List Diagnostic := []
  /-- Return statements that already follow the plan of their function. -/
  settled : List NodeId := []

/-- Why a run stops without a result. -/
inductive Halt where
  | fatal (report : Diagnostic)
  /-- The fuel given did not suffice. -/
  | outOfFuel

/-- A step of a lowering. -/
abbrev LowerM := StateT State (Except Halt)

/-- Stop with a fatal report. -/
def fail {α : Type} (report : Diagnostic) : LowerM α := throw (.fatal report)

/-- A statement with a fresh identity. -/
def newStmt (form : StmtForm) (span : Span) : LowerM Stmt :=
  modifyGet fun s => (⟨s.nextId, span, form⟩, { s with nextId := s.nextId + 1 })

/-- The name of the synthesized variable numbered `n`. -/
def Options.discardName (options : Options) (n : Nat) : String :=
  s!"{options.discardPrefix}{n}"

/-- The name of a new synthesized variable. -/
def newName (env : Env) : LowerM String :=
  modifyGet fun s => (env.options.discardName s.discards, { s with discards := s.discards + 1 })

def warn (report : Diagnostic) : LowerM Unit :=
  modify fun s => { s with warnings := s.warnings ++ [report] }

/-- A variable to declare. -/
abbrev Var := String × TypeExpr

/-- A declaration with one typed specification for each variable. -/
def varDecl (vars : List Var) (span : Span) : GenDecl :=
  { keyword := .var, span
    specs := vars.map fun (name, type) => .value [⟨name, span⟩] (some ⟨type, span⟩) [] }

/-- A statement that declares variables. -/
def declareVars (vars : List Var) (span : Span) : LowerM Stmt :=
  newStmt (.decl (varDecl vars span)) span

/-- The declaration of `vars` as a sequence, empty when there are none. -/
def declareAny (vars : List Var) (span : Span) : LowerM (List Stmt) := do
  if vars.isEmpty then return [] else return [← declareVars vars span]

/-- The report of a missing type. -/
def unknownType (what : String) (span : Span) : Diagnostic :=
  (Diagnostic.error .typeResolution s!"cannot resolve the type of {what}" span).withHelp
    "declare it with an explicit type before this statement"

/-- The annotation of an answer, or a failure that names what has no type. -/
def requireType (answer : Option ResolvedType) (what : String) (span : Span) : LowerM TypeExpr :=
  match answer with
  | some type => return type.annotation
  | none => fail (unknownType what span)

/-- The names a statement declares in its own scope. -/
def declaredNames (stmt : Stmt) : List String :=
  match stmt.form with
  | .decl decl => decl.specs.flatMap fun
    | .value names _ _ => names.map (·.val)
    | .typeName .. => []
  | .assign targets .define _ => targets.filterMap Expr.name?
  | _ => []

/-- What a rule makes of a statement: a new form, and statements to put in front of it. -/
structure Replacement where
  before : List Stmt := []
  form : StmtForm

end ScriptLowering.Lowering
