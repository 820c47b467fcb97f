import ScriptLowering.Token.Comment
import ScriptLowering.Token.Numeral

/-!
# Scanning

Comment-free text to tokens. Each lexeme is found at its first character as a number of
further characters it takes, so nothing between two lexemes but blanks is passed over.
-/

namespace ScriptLowering.Token

/-- What begins at some character: how many further characters it takes, the token it makes,
and what is wrong with it. -/
structure Lexeme where
  extra : Nat
  kind : Option Kind
  report : Option Diagnostic := none
deriving DecidableEq, Repr, Inhabited

/-- A name or a keyword. -/
def wordLexeme (c : Char) (cs : List Char) : Lexeme :=
  let extra := Numeral.run Source.isNameRest cs
  { extra, kind := some ((Kind.ofKeyword? (String.ofList (c :: cs.take extra))).getD .ident) }

def numeralLexeme (file pos : Nat) (c : Char) (cs : List Char) : Lexeme :=
  let numeral := Numeral.read (c :: cs)
  let extra := numeral.length - 1
  { extra, kind := some numeral.kind
    report := numeral.fault.map fun fault =>
      fault.report ⟨file, pos, pos + byteLength (c :: cs.take extra)⟩ }

/-- A literal. One that does not close takes the rest of the text and makes no token, and so
does an empty character literal. -/
def literalLexeme (file pos : Nat) (opener : Opener) (cs : List Char) : Lexeme :=
  match literalExtent file pos opener cs with
  | .error report => { extra := cs.length, kind := none, report := some report }
  | .ok extra =>
    match opener with
    | .doubleQuote | .backtick => { extra, kind := some .string }
    | .singleQuote =>
      if extra = 1 then
        { extra, kind := none, report := some (Fault.report .emptyCharacter ⟨file, pos, pos + 2⟩) }
      else { extra, kind := some .char }

/-- Punctuation, or a character that is not part of the grammar. -/
def symbolLexeme (file pos : Nat) (c : Char) (cs : List Char) : Lexeme :=
  match Kind.ofPunctuation? (c :: cs) with
  | some (kind, length) => { extra := length - 1, kind := some kind }
  | none =>
    { extra := 0, kind := none
      report := some (Fault.report (.unexpected c) ⟨file, pos, pos + c.utf8Size⟩) }

/-- The lexeme that begins with `c`, no blank, at byte `pos`, and goes on in `cs`. -/
def lexemeAt (file pos : Nat) (c : Char) (cs : List Char) : Lexeme :=
  if Source.isNameStart c then wordLexeme c cs
  else if c.isDigit || (c == '.' && cs.head?.any Char.isDigit) then numeralLexeme file pos c cs
  else match Opener.ofChar? c with
    | some opener => literalLexeme file pos opener cs
    | none => symbolLexeme file pos c cs

/-- Tokens and reports of one text. -/
structure Scanned where
  tokens : List Token := []
  reports : List Diagnostic := []
deriving DecidableEq, Repr, Inhabited

/-- Put what one lexeme makes in front. -/
def Scanned.prepend (token : Option Token) (report : Option Diagnostic) (rest : Scanned) :
    Scanned :=
  { tokens := token.toList ++ rest.tokens, reports := report.toList ++ rest.reports }

/-- Scan a text that begins at byte `pos`, its first `skip` characters belonging to the lexeme
before. `newline` tells whether a line break was passed since the last token. -/
def scanFrom (file : Nat) : (skip pos : Nat) → (newline : Bool) → List Char → Scanned
  | _, _, _, [] => {}
  | skip + 1, pos, newline, c :: cs => scanFrom file skip (pos + c.utf8Size) newline cs
  | 0, pos, newline, c :: cs =>
    if Source.isBlank c then scanFrom file 0 (pos + c.utf8Size) (newline || c == '\n') cs
    else
      let lexeme := lexemeAt file pos c cs
      let text := c :: cs.take lexeme.extra
      let token := lexeme.kind.map fun kind =>
        { kind, text := String.ofList text, span := ⟨file, pos, pos + byteLength text⟩
          afterNewline := newline }
      let rest := scanFrom file lexeme.extra (pos + c.utf8Size) (newline && token.isNone) cs
      rest.prepend token lexeme.report

/-- Scan a text without comments. -/
def scan (file : Nat) (text : List Char) : Scanned := scanFrom file 0 0 false text

/-- The tokens of a source text. Comments are blanked first; a report of either step is a
failure. -/
def ofSource (options : ScanOptions) (file : Nat) (source : String) :
    Except (List Diagnostic) (List Token) :=
  match blankComments options file source.toList with
  | .error report => .error [report]
  | .ok text =>
    let scanned := scan file text
    if scanned.reports.isEmpty then .ok scanned.tokens else .error scanned.reports

/-- Skipping characters of a lexeme is the same as starting after them. -/
theorem scanFrom_skip (file skip pos : Nat) (newline : Bool) (cs : List Char) :
    scanFrom file skip pos newline cs =
      scanFrom file 0 (pos + byteLength (cs.take skip)) newline (cs.drop skip) := by
  induction skip generalizing pos cs with
  | zero => simp
  | succ skip ih =>
    cases cs with
    | nil => simp [scanFrom]
    | cons c cs =>
      rw [scanFrom, ih]
      simp [Nat.add_assoc]

end ScriptLowering.Token
