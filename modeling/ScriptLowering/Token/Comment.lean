import ScriptLowering.Token.Literal

/-!
# Comments

Source text is cut into segments: code, comments and literals. Blanking the comments leaves a
text of the same byte length in which every other character keeps its offset, so the token
scanner need not know about comments. A literal is a segment of its own, because comment marks
inside it open nothing.
-/

namespace ScriptLowering.Token

/-- How text is to be scanned. -/
structure ScanOptions where
  /-- Refuse comment openers inside literals. -/
  strictLiterals : Bool := true
deriving DecidableEq, Repr, Inhabited

/-- What a segment holds. -/
inductive Role where
  | code
  | comment
  | literal
deriving DecidableEq, Repr, Inhabited

/-- A stretch of source text. Code comes in segments of one character. -/
structure Segment where
  role : Role
  text : List Char
deriving DecidableEq, Repr, Inhabited

/-- A comment becomes spaces, one for each byte, but keeps its line breaks. -/
def Segment.blanked (segment : Segment) : List Char :=
  match segment.role with
  | .comment => segment.text.flatMap fun c => if c == '\n' then [c] else Source.spaces c
  | .code | .literal => segment.text

/-- The number of characters up to and including the first `*/`. -/
def blockCommentEnd? : List Char → Option Nat
  | '*' :: '/' :: _ => some 2
  | _ :: cs => (blockCommentEnd? cs).map (· + 1)
  | [] => none

/-- The segment that begins with `c`, at byte `pos`, and goes on with `cs`: its role and how
many characters of `cs` it takes. -/
def segmentAt (options : ScanOptions) (file pos : Nat) (c : Char) (cs : List Char)
    (measure : List Char → Nat := byteLength) : Except Diagnostic (Role × Nat) :=
  match c, cs with
  | '/', '/' :: _ => .ok (.comment, (cs.takeWhile (· != '\n')).length)
  | '/', '*' :: body =>
    match blockCommentEnd? body with
    | some count => .ok (.comment, count + 1)
    | none => .error (Fault.report .unterminatedComment ⟨file, pos, pos + measure (c :: cs)⟩)
  | _, _ =>
    match Opener.ofChar? c with
    | none => .ok (.code, 0)
    | some opener => do
      let count ← literalExtent file pos opener cs measure
      let text := c :: cs.take count
      if options.strictLiterals && hasCommentOpener text then
        throw (Fault.report .commentInLiteral ⟨file, pos, pos + measure text⟩)
      return (.literal, count)

/-- The segments of a text that begins at byte `pos`, its first `skip` characters belonging to
the segment before. -/
def segmentsFrom (options : ScanOptions) (file : Nat) :
    (skip pos : Nat) → List Char → Except Diagnostic (List Segment)
  | _, _, [] => .ok []
  | skip + 1, pos, c :: cs => segmentsFrom options file skip (pos + c.utf8Size) cs
  | 0, pos, c :: cs => do
    let (role, count) ← segmentAt options file pos c cs
    let rest ← segmentsFrom options file count (pos + c.utf8Size) cs
    return ⟨role, c :: cs.take count⟩ :: rest

/-- The segments of a whole text, in order. -/
def segments (options : ScanOptions) (file : Nat) (source : List Char) :
    Except Diagnostic (List Segment) :=
  segmentsFrom options file 0 0 source

/-- The text with every comment blanked. -/
def blankComments (options : ScanOptions) (file : Nat) (source : List Char) :
    Except Diagnostic (List Char) :=
  (segments options file source).map fun parts => parts.flatMap Segment.blanked

/-! ## Bytes -/

/-- What becomes of a byte. -/
def blankByte (inComment : Bool) (byte : UInt8) : UInt8 :=
  if inComment && byte != 0x0a then 0x20 else byte

/-- Which bytes of a text belong to comments. Each byte is read as a character: the scan does not
know which of them make up one, and an escape takes a single byte with it. The first `skip` bytes
belong to the segment before. -/
def commentMaskFrom (options : ScanOptions) (file : Nat) :
    (skip pos : Nat) → List Char → Except Diagnostic (List Bool)
  | _, _, [] => .ok []
  | skip + 1, pos, _ :: us => commentMaskFrom options file skip (pos + 1) us
  | 0, pos, u :: us => do
    let (role, count) ← segmentAt options file pos u us List.length
    let rest ← commentMaskFrom options file count (pos + 1) us
    return List.replicate (count + 1) (decide (role = .comment)) ++ rest

/-- The same text, blanked byte by byte. What comes out must be encoded text again. -/
def preprocess (options : ScanOptions) (file : Nat) (source : String) :
    Except Diagnostic String := do
  let bytes := Source.bytes source
  let mask ← commentMaskFrom options file 0 0 (bytes.map Char.ofUInt8)
  match String.fromUTF8? (List.zipWith blankByte mask bytes).toByteArray with
  | some text => return text
  | none => throw (Fault.report .invalidEncoding ⟨file, 0, bytes.length⟩)

end ScriptLowering.Token
