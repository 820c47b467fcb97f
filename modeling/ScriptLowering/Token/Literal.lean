import ScriptLowering.Source.Bytes
import ScriptLowering.Token.Fault

/-!
# Quoted and raw literals

Where a literal ends. Comment blanking and token scanning both read literals through
`Literal.extent`, so they agree on what lies inside one.
-/

namespace ScriptLowering.Token

/-- How the text after an opening quote goes on. Counts are of characters after the quote. -/
inductive QuotedEnd where
  /-- The literal closes after `count` characters, the closing quote included. -/
  | closed (count : Nat)
  | endOfInput
  /-- The last character of the input is a backslash, after `count` others. -/
  | danglingEscape (count : Nat)
  /-- A line break comes after `count` characters. -/
  | newline (count : Nat)
deriving DecidableEq, Repr, Inhabited

/-- The same end in other counts. -/
def QuotedEnd.map (f : Nat → Nat) : QuotedEnd → QuotedEnd
  | closed count => closed (f count)
  | endOfInput => endOfInput
  | danglingEscape count => danglingEscape (f count)
  | newline count => newline (f count)

/-- Read up to the closing `quote`. A backslash takes the next character with it, whatever it
is. -/
def quotedEnd (quote : Char) : List Char → QuotedEnd
  | [] => .endOfInput
  | ['\\'] => .danglingEscape 0
  | '\\' :: _ :: cs => (quotedEnd quote cs).map (· + 2)
  | c :: cs =>
    if c == '\n' then .newline 0
    else if c == quote then .closed 1
    else (quotedEnd quote cs).map (· + 1)

/-- The marks that open a literal, and close it again. -/
inductive Opener where
  | doubleQuote
  | singleQuote
  | backtick
deriving DecidableEq, Repr, Inhabited

namespace Opener

def char : Opener → Char
  | doubleQuote => '\x22'
  | singleQuote => '\x27'
  | backtick => '\x60'

def ofChar? (c : Char) : Option Opener :=
  if c == doubleQuote.char then some doubleQuote
  else if c == singleQuote.char then some singleQuote
  else if c == backtick.char then some backtick
  else none

end Opener

/-- The number of characters of a literal after its opening quote, or the fault of a literal
that does not close. The opening quote stands at byte `pos` of file `file`, just before `cs`, whose
bytes `measure` counts. -/
def quotedExtent (file pos : Nat) (what : QuotedClass) (quote : Char) (cs : List Char)
    (measure : List Char → Nat := byteLength) : Except Diagnostic Nat :=
  let offset (count : Nat) : Nat := pos + 1 + measure (cs.take count)
  let stop := pos + 1 + measure cs
  match quotedEnd quote cs with
  | .closed count => .ok count
  | .endOfInput => .error (Fault.report (.unterminated what) ⟨file, pos, stop⟩)
  | .danglingEscape count =>
    .error (Fault.report (.danglingEscape what) ⟨file, offset count, stop⟩)
  | .newline count =>
    .error (Fault.report (.brokenByNewline what) ⟨file, pos, offset count⟩)

/-- The same for any opening mark. A raw literal goes to the next backtick and may span
lines. -/
def literalExtent (file pos : Nat) (opener : Opener) (cs : List Char)
    (measure : List Char → Nat := byteLength) : Except Diagnostic Nat :=
  match opener with
  | .doubleQuote => quotedExtent file pos .string opener.char cs measure
  | .singleQuote => quotedExtent file pos .character opener.char cs measure
  | .backtick =>
    if opener.char ∈ cs then .ok ((cs.takeWhile (· != opener.char)).length + 1)
    else .error (Fault.report .unterminatedRaw ⟨file, pos, pos + 1 + measure cs⟩)

/-- A comment opener stands somewhere in `cs`. -/
def hasCommentOpener : List Char → Bool
  | '/' :: '/' :: _ => true
  | '/' :: '*' :: _ => true
  | _ :: cs => hasCommentOpener cs
  | [] => false

end ScriptLowering.Token
