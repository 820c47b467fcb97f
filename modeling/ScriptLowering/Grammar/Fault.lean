import ScriptLowering.Diagnostic
import ScriptLowering.Token.Basic

/-!
# What can be wrong with a token sequence

Two families of causes: something was wanted where another token stands, and something that
was read may not stand where it does.
-/

namespace ScriptLowering.Grammar

/-- What the grammar asks for at the current token. -/
inductive Wanted where
  | token (kind : Token.Kind)
  | terminator
  | identifier
  | importPath
  | declaration
  | endOfInput
  | gotoLabel
  | assignment
  | condition
  | elseBranch
  | caseLabel
  | expression
  | typeExpr
  | typeOrInitializer
deriving DecidableEq, Repr, Inhabited

def Wanted.message : Wanted → String
  | token kind => s!"expected {kind.describe}"
  | terminator => "expected ';' or newline"
  | identifier => "expected identifier"
  | importPath => "expected import path"
  | declaration => "expected declaration"
  | endOfInput => "expected end of input"
  | gotoLabel => "expected label after 'goto'"
  | assignment => "expected ':=' or '=' after expression list"
  | condition => "missing condition in if statement"
  | elseBranch => "expected 'if' or block after 'else'"
  | caseLabel => "expected 'case' or 'default'"
  | expression => "expected expression"
  | typeExpr => "expected type"
  | typeOrInitializer => "expected type or initializer"

/-- What may not stand where it does. -/
inductive Misuse where
  | tooDeep
  | lateImport
  | notACall
  | strayRange
  | wideRange
  | compoundOperands
  | definesNonName
  | notACondition
  | notATag
  | notALoopCondition
  | mixedParameters
  | untypedParameter
deriving DecidableEq, Repr, Inhabited

namespace Misuse

def message : Misuse → String
  | tooDeep => "nesting depth exceeded (maximum 256 levels)"
  | lateImport => "imports must appear before other declarations"
  | notACall => "expression must be a function call"
  | strayRange => "'range' is only allowed in a for statement"
  | wideRange => "range yields at most two values"
  | compoundOperands => "compound assignment takes exactly one operand on each side"
  | definesNonName => "non-name on left side of ':='"
  | notACondition => "expected condition expression"
  | notATag => "expected switch expression"
  | notALoopCondition => "expected for loop condition"
  | mixedParameters => "mixed named and unnamed parameters"
  | untypedParameter => "missing parameter type"

def help? : Misuse → Option String
  | tooDeep => some "extract deeply nested code into functions"
  | lateImport => some "move this import to the top of the file"
  | _ => none

/-- The misuse reported at `span`. -/
def report (misuse : Misuse) (span : Span) : Diagnostic :=
  { Diagnostic.error .parse misuse.message span with help := misuse.help? }

end Misuse

/-- A token in the words of a message. -/
def describeToken (token : Token) : String :=
  match token.kind with
  | .semicolon => if token.text == "\n" then "newline" else token.kind.describe
  | .ident => s!"identifier '{token.text}'"
  | .int | .float | .char | .string => s!"{token.kind.describe} {token.text}"
  | kind => kind.describe

/-- `wanted` reported at `found`, which stands in its place. -/
def Wanted.report (wanted : Wanted) (found : Token) : Diagnostic :=
  .error .parse s!"{wanted.message}, found {describeToken found}" found.span

@[simp] theorem Misuse.cause_report (misuse : Misuse) (span : Span) :
    (misuse.report span).cause = .parse := rfl

@[simp] theorem Wanted.cause_report (wanted : Wanted) (found : Token) :
    (wanted.report found).cause = .parse := rfl

end ScriptLowering.Grammar
