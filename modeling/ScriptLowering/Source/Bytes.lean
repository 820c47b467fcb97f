/-!
# Text measured in bytes

Offsets count the bytes of the UTF-8 encoding, while the scanner reads characters. This file
holds the measure that connects the two, and the character classes of the source grammar.
-/

namespace ScriptLowering

/-- Number of bytes of the UTF-8 encoding of `cs`. -/
def byteLength : List Char → Nat
  | [] => 0
  | c :: cs => c.utf8Size + byteLength cs

@[simp] theorem byteLength_nil : byteLength [] = 0 := rfl

@[simp] theorem byteLength_cons (c : Char) (cs : List Char) :
    byteLength (c :: cs) = c.utf8Size + byteLength cs := rfl

@[simp] theorem byteLength_append (xs ys : List Char) :
    byteLength (xs ++ ys) = byteLength xs + byteLength ys := by
  induction xs with
  | nil => simp
  | cons c cs ih => simp [ih, Nat.add_assoc]

/-- Cutting a text in two neither loses nor gains bytes. -/
theorem byteLength_take_add_drop (n : Nat) (cs : List Char) :
    byteLength (cs.take n) + byteLength (cs.drop n) = byteLength cs := by
  rw [← byteLength_append, List.take_append_drop]

namespace Source

/-- Blanks between tokens: space, tab, line feed, form feed and carriage return. Vertical tab
is not one of them, and no character outside ASCII is. -/
def isBlank (c : Char) : Bool :=
  c == ' ' || c == '\t' || c == '\n' || c == '\x0c' || c == '\r'

/-- Letters and the underscore; letters are ASCII. -/
def isNameStart (c : Char) : Bool := c.isAlpha || c == '_'

/-- What may follow in a name: letters, digits and the underscore, all ASCII. -/
def isNameRest (c : Char) : Bool := c.isAlphanum || c == '_'

def isHexDigit (c : Char) : Bool :=
  c.isDigit || ('a' ≤ c && c ≤ 'f') || ('A' ≤ c && c ≤ 'F')

/-- The UTF-8 encoding of a text. -/
def bytes (text : String) : List UInt8 := text.toUTF8.data.toList

/-- `c` replaced by as many spaces as it has bytes. -/
def spaces (c : Char) : List Char := List.replicate c.utf8Size ' '

theorem byteLength_spaces (c : Char) : byteLength (spaces c) = c.utf8Size := by
  have h : ∀ n : Nat, byteLength (List.replicate n ' ') = n := by
    intro n
    induction n with
    | zero => rfl
    | succ n ih =>
      have hs : (' ' : Char).utf8Size = 1 := by decide
      simp only [List.replicate_succ, byteLength_cons, ih, hs]
      omega
  exact h _

end Source

end ScriptLowering
