import ScriptLowering.Diagnostic

/-!
# What can be wrong with text

The causes a scan can fail for, with their wording. Where a cause is raised decides the place
it is reported at.
-/

namespace ScriptLowering.Token

/-- The two literals that end at a quote and cannot span lines. -/
inductive QuotedClass where
  | string
  | character
deriving DecidableEq, Repr, Inhabited

def QuotedClass.name : QuotedClass → String
  | string => "string"
  | character => "character"

/-- Why text is not scanned. -/
inductive Fault where
  | unterminatedComment
  /-- The literal runs to the end of the input. -/
  | unterminated (what : QuotedClass)
  /-- The literal runs into a line break. -/
  | brokenByNewline (what : QuotedClass)
  | danglingEscape (what : QuotedClass)
  | unterminatedRaw
  | commentInLiteral
  | invalidEncoding
  | emptyCharacter
  | hexWithoutDigits
  | hexWithoutExponent
  | exponentWithoutDigits (text : String)
  | imaginary (text : String)
  | malformedNumber (text : String)
  | unexpected (c : Char)
deriving DecidableEq, Repr, Inhabited

namespace Fault

/-- The code point in at least four hexadecimal digits. -/
def codePoint (c : Char) : String :=
  let digits := (Nat.toDigits 16 c.toNat).map Char.toUpper
  String.ofList (List.replicate (4 - digits.length) '0' ++ digits)

def message : Fault → String
  | unterminatedComment => "unterminated block comment"
  | unterminated what => s!"unterminated {what.name} literal"
  | brokenByNewline what => s!"unterminated {what.name} literal"
  | danglingEscape what => s!"escape sequence in {what.name} literal runs past end of input"
  | unterminatedRaw => "unterminated raw string literal"
  | commentInLiteral => "comment opener inside a literal"
  | invalidEncoding => "source is not valid UTF-8"
  | emptyCharacter => "empty character literal"
  | hexWithoutDigits => "hexadecimal literal has no digits"
  | hexWithoutExponent => "hexadecimal mantissa requires a 'p' exponent"
  | exponentWithoutDigits text => s!"exponent has no digits in '{text}'"
  | imaginary text => s!"imaginary literal '{text}' is not supported"
  | malformedNumber text => s!"malformed numeric literal '{text}'"
  | unexpected c => s!"unexpected character '{c}' (U+{codePoint c})"

def help? : Fault → Option String
  | unterminatedComment => some "close the comment with `*/`"
  | brokenByNewline what => some s!"{what.name} literals cannot span lines"
  | commentInLiteral => some "set `strict_literals = false` under [scan] to accept it"
  | imaginary _ => some "the target grammar has no complex numbers"
  | unexpected _ => some "this character is not part of the source grammar"
  | _ => none

/-- The fault reported at `span`. -/
def report (fault : Fault) (span : Span) : Diagnostic :=
  { Diagnostic.error .scan fault.message span with help := fault.help? }

@[simp] theorem cause_report (fault : Fault) (span : Span) :
    (fault.report span).cause = .scan := rfl

@[simp] theorem span_report (fault : Fault) (span : Span) : (fault.report span).span = span := rfl

end Fault

end ScriptLowering.Token
