import ScriptLowering.Source.Span

/-!
# Tokens

The words of the source grammar: their kinds, the tables that spell keywords and punctuation,
and the token itself. Keywords and punctuation are read through the tables, so each spelling
is written once.
-/

namespace ScriptLowering

namespace Token

/-- Token kinds of the source grammar. -/
inductive Kind where
  | ident
  | int
  | float
  | char
  | string
  | kwPackage
  | kwImport
  | kwFunc
  | kwVar
  | kwConst
  | kwType
  | kwStruct
  | kwInterface
  | kwMap
  | kwChan
  | kwIf
  | kwElse
  | kwFor
  | kwRange
  | kwSwitch
  | kwCase
  | kwDefault
  | kwSelect
  | kwBreak
  | kwContinue
  | kwGoto
  | kwFallthrough
  | kwReturn
  | kwGo
  | kwDefer
  | intType
  | int8Type
  | int16Type
  | int32Type
  | int64Type
  | uintType
  | uint8Type
  | uint16Type
  | uint32Type
  | uint64Type
  | float32Type
  | float64Type
  | boolType
  | stringType
  | byteType
  | runeType
  | plus
  | minus
  | star
  | slash
  | percent
  | amp
  | pipe
  | caret
  | shiftLeft
  | shiftRight
  | ampCaret
  | plusAssign
  | minusAssign
  | starAssign
  | slashAssign
  | percentAssign
  | ampAssign
  | pipeAssign
  | caretAssign
  | shiftLeftAssign
  | shiftRightAssign
  | ampCaretAssign
  | andAnd
  | orOr
  | arrow
  | increment
  | decrement
  | equal
  | less
  | greater
  | assign
  | bang
  | notEqual
  | lessEqual
  | greaterEqual
  | define
  | ellipsis
  | leftParen
  | rightParen
  | leftBracket
  | rightBracket
  | leftBrace
  | rightBrace
  | comma
  | dot
  | semicolon
  | colon
  | endOfInput
deriving DecidableEq, Repr, Inhabited

namespace Kind

/-- Keywords with their spelling. Names of builtin types are keywords too. -/
def keywords : List (String × Kind) := [
  ("package", kwPackage),
  ("import", kwImport),
  ("func", kwFunc),
  ("var", kwVar),
  ("const", kwConst),
  ("type", kwType),
  ("struct", kwStruct),
  ("interface", kwInterface),
  ("map", kwMap),
  ("chan", kwChan),
  ("if", kwIf),
  ("else", kwElse),
  ("for", kwFor),
  ("range", kwRange),
  ("switch", kwSwitch),
  ("case", kwCase),
  ("default", kwDefault),
  ("select", kwSelect),
  ("break", kwBreak),
  ("continue", kwContinue),
  ("goto", kwGoto),
  ("fallthrough", kwFallthrough),
  ("return", kwReturn),
  ("go", kwGo),
  ("defer", kwDefer),
  ("int", intType),
  ("int8", int8Type),
  ("int16", int16Type),
  ("int32", int32Type),
  ("int64", int64Type),
  ("uint", uintType),
  ("uint8", uint8Type),
  ("uint16", uint16Type),
  ("uint32", uint32Type),
  ("uint64", uint64Type),
  ("float32", float32Type),
  ("float64", float64Type),
  ("bool", boolType),
  ("string", stringType),
  ("byte", byteType),
  ("rune", runeType)]

/-- Punctuation with its spelling, longer spellings first, so that the first entry that fits
is the longest one. -/
def punctuation : List (String × Kind) := [
  ("&^=", ampCaretAssign),
  ("<<=", shiftLeftAssign),
  (">>=", shiftRightAssign),
  ("...", ellipsis),
  ("&^", ampCaret),
  ("+=", plusAssign),
  ("-=", minusAssign),
  ("*=", starAssign),
  ("/=", slashAssign),
  ("%=", percentAssign),
  ("&=", ampAssign),
  ("|=", pipeAssign),
  ("^=", caretAssign),
  ("<<", shiftLeft),
  (">>", shiftRight),
  ("&&", andAnd),
  ("||", orOr),
  ("<-", arrow),
  ("++", increment),
  ("--", decrement),
  ("==", equal),
  ("!=", notEqual),
  ("<=", lessEqual),
  (">=", greaterEqual),
  (":=", define),
  ("+", plus),
  ("-", minus),
  ("*", star),
  ("/", slash),
  ("%", percent),
  ("&", amp),
  ("|", pipe),
  ("^", caret),
  ("<", less),
  (">", greater),
  ("=", assign),
  ("!", bang),
  ("(", leftParen),
  (")", rightParen),
  ("[", leftBracket),
  ("]", rightBracket),
  ("\x7b", leftBrace),
  ("\x7d", rightBrace),
  (",", comma),
  (".", dot),
  (";", semicolon),
  (":", colon)]

/-- The keyword spelled `text`. -/
def ofKeyword? (text : String) : Option Kind :=
  (keywords.find? fun entry => entry.1 == text).map (·.2)

/-- The longest punctuation that `text` begins with, and its number of characters. All
punctuation is ASCII, so that is also its number of bytes. -/
def ofPunctuation? (text : List Char) : Option (Kind × Nat) :=
  (punctuation.find? fun entry => entry.1.toList.isPrefixOf text).map
    fun entry => (entry.2, entry.1.length)

/-- The kinds that name a builtin type. -/
def isBuiltinType : Kind → Bool
  | intType | int8Type | int16Type | int32Type | int64Type
  | uintType | uint8Type | uint16Type | uint32Type | uint64Type
  | float32Type | float64Type | boolType | stringType | byteType | runeType => true
  | _ => false

/-- The kind as listings write it. -/
def name : Kind → String
  | ident => "Ident"
  | int => "Int"
  | float => "Float"
  | char => "Char"
  | string => "String"
  | kwPackage => "Package"
  | kwImport => "Import"
  | kwFunc => "Func"
  | kwVar => "Var"
  | kwConst => "Const"
  | kwType => "Type"
  | kwStruct => "Struct"
  | kwInterface => "Interface"
  | kwMap => "Map"
  | kwChan => "Chan"
  | kwIf => "If"
  | kwElse => "Else"
  | kwFor => "For"
  | kwRange => "Range"
  | kwSwitch => "Switch"
  | kwCase => "Case"
  | kwDefault => "Default"
  | kwSelect => "Select"
  | kwBreak => "Break"
  | kwContinue => "Continue"
  | kwGoto => "Goto"
  | kwFallthrough => "Fallthrough"
  | kwReturn => "Return"
  | kwGo => "Go"
  | kwDefer => "Defer"
  | intType => "IntTy"
  | int8Type => "Int8Ty"
  | int16Type => "Int16Ty"
  | int32Type => "Int32Ty"
  | int64Type => "Int64Ty"
  | uintType => "UintTy"
  | uint8Type => "Uint8Ty"
  | uint16Type => "Uint16Ty"
  | uint32Type => "Uint32Ty"
  | uint64Type => "Uint64Ty"
  | float32Type => "Float32Ty"
  | float64Type => "Float64Ty"
  | boolType => "BoolTy"
  | stringType => "StringTy"
  | byteType => "ByteTy"
  | runeType => "RuneTy"
  | plus => "Plus"
  | minus => "Minus"
  | star => "Star"
  | slash => "Slash"
  | percent => "Percent"
  | amp => "Amp"
  | pipe => "Pipe"
  | caret => "Caret"
  | shiftLeft => "Shl"
  | shiftRight => "Shr"
  | ampCaret => "AmpCaret"
  | plusAssign => "PlusAssign"
  | minusAssign => "MinusAssign"
  | starAssign => "StarAssign"
  | slashAssign => "SlashAssign"
  | percentAssign => "PercentAssign"
  | ampAssign => "AmpAssign"
  | pipeAssign => "PipeAssign"
  | caretAssign => "CaretAssign"
  | shiftLeftAssign => "ShlAssign"
  | shiftRightAssign => "ShrAssign"
  | ampCaretAssign => "AmpCaretAssign"
  | andAnd => "AndAnd"
  | orOr => "OrOr"
  | arrow => "Arrow"
  | increment => "Inc"
  | decrement => "Dec"
  | equal => "EqEq"
  | less => "Lt"
  | greater => "Gt"
  | assign => "Assign"
  | bang => "Bang"
  | notEqual => "NotEq"
  | lessEqual => "LtEq"
  | greaterEqual => "GtEq"
  | define => "Define"
  | ellipsis => "Ellipsis"
  | leftParen => "LParen"
  | rightParen => "RParen"
  | leftBracket => "LBracket"
  | rightBracket => "RBracket"
  | leftBrace => "LBrace"
  | rightBrace => "RBrace"
  | comma => "Comma"
  | dot => "Dot"
  | semicolon => "Semicolon"
  | colon => "Colon"
  | endOfInput => "Eof"

/-- The spelling of a keyword or of punctuation. -/
def spelling? (kind : Kind) : Option String :=
  ((keywords ++ punctuation).find? fun entry => entry.2 == kind).map (·.1)

/-- The kind in the words of a message: a class of tokens by its name, a fixed token by its
spelling in quotes. -/
def describe : Kind → String
  | ident => "identifier"
  | int => "integer literal"
  | float => "float literal"
  | char => "character literal"
  | string => "string literal"
  | endOfInput => "end of file"
  | kind => match kind.spelling? with
    | some text => s!"'{text}'"
    | none => kind.name

/-- A line break after a token of this kind ends the statement: after a name, a literal, the
name of a builtin type, a closing bracket, `++`, `--`, or one of the words that end a
statement by themselves. -/
def endsStatement (kind : Kind) : Bool :=
  kind.isBuiltinType ||
    match kind with
    | ident | int | float | char | string
    | kwBreak | kwContinue | kwFallthrough | kwReturn
    | increment | decrement | rightParen | rightBracket | rightBrace => true
    | _ => false

end Kind

end Token

/-- A scanned token. -/
structure Token where
  kind : Token.Kind
  /-- The text as written. -/
  text : String
  span : Span
  /-- A line break separates this token from the one before. -/
  afterNewline : Bool := false
deriving DecidableEq, Repr, Inhabited

end ScriptLowering
