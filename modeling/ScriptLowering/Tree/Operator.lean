/-!
# Operators and small vocabularies of the tree

The closed sets a tree node chooses from, each with its spelling.
-/

namespace ScriptLowering

inductive UnaryOp where
  | plus
  | neg
  | not
  | complement
  | deref
  | addressOf
  | receive
deriving DecidableEq, Repr, Inhabited

def UnaryOp.text : UnaryOp → String
  | plus => "+"
  | neg => "-"
  | not => "!"
  | complement => "^"
  | deref => "*"
  | addressOf => "&"
  | receive => "<-"

inductive BinaryOp where
  | logicalOr
  | logicalAnd
  | eq
  | ne
  | lt
  | le
  | gt
  | ge
  | add
  | sub
  | bitOr
  | bitXor
  | mul
  | div
  | rem
  | shiftLeft
  | shiftRight
  | bitAnd
  | andNot
deriving DecidableEq, Repr, Inhabited

namespace BinaryOp

def text : BinaryOp → String
  | logicalOr => "||"
  | logicalAnd => "&&"
  | eq => "=="
  | ne => "!="
  | lt => "<"
  | le => "<="
  | gt => ">"
  | ge => ">="
  | add => "+"
  | sub => "-"
  | bitOr => "|"
  | bitXor => "^"
  | mul => "*"
  | div => "/"
  | rem => "%"
  | shiftLeft => "<<"
  | shiftRight => ">>"
  | bitAnd => "&"
  | andNot => "&^"

/-- Binding strength, from 1 (loosest) to 5 (tightest). -/
def precedence : BinaryOp → Nat
  | logicalOr => 1
  | logicalAnd => 2
  | eq | ne | lt | le | gt | ge => 3
  | add | sub | bitOr | bitXor => 4
  | mul | div | rem | shiftLeft | shiftRight | bitAnd | andNot => 5

def isComparison (op : BinaryOp) : Bool := op.precedence == 3

/-- The right operand is evaluated only when the left one does not decide. -/
def isShortCircuit : BinaryOp → Bool
  | logicalOr | logicalAnd => true
  | _ => false

end BinaryOp

/-- How an assignment combines its sides: a definition, a plain assignment, or a compound
assignment that applies a binary operator. -/
inductive AssignOp where
  | define
  | assign
  | add
  | sub
  | mul
  | div
  | rem
  | bitAnd
  | bitOr
  | bitXor
  | shiftLeft
  | shiftRight
  | andNot
deriving DecidableEq, Repr, Inhabited

namespace AssignOp

def text : AssignOp → String
  | define => ":="
  | assign => "="
  | add => "+="
  | sub => "-="
  | mul => "*="
  | div => "/="
  | rem => "%="
  | bitAnd => "&="
  | bitOr => "|="
  | bitXor => "^="
  | shiftLeft => "<<="
  | shiftRight => ">>="
  | andNot => "&^="

/-- The binary operator a compound assignment applies. -/
def combines? : AssignOp → Option BinaryOp
  | define | assign => none
  | add => some .add
  | sub => some .sub
  | mul => some .mul
  | div => some .div
  | rem => some .rem
  | bitAnd => some .bitAnd
  | bitOr => some .bitOr
  | bitXor => some .bitXor
  | shiftLeft => some .shiftLeft
  | shiftRight => some .shiftRight
  | andNot => some .andNot

end AssignOp

/-- Statements that leave the normal flow without a value. -/
inductive Jump where
  | breakOut
  | nextRound
  | goTo
  | fallthrough
deriving DecidableEq, Repr, Inhabited

def Jump.text : Jump → String
  | breakOut => "break"
  | nextRound => "continue"
  | goTo => "goto"
  | fallthrough => "fallthrough"

inductive ChannelDirection where
  | both
  | send
  | receive
deriving DecidableEq, Repr, Inhabited

/-- The word that opens a general declaration. -/
inductive DeclKeyword where
  | var
  | const
  | type
deriving DecidableEq, Repr, Inhabited

def DeclKeyword.text : DeclKeyword → String
  | var => "var"
  | const => "const"
  | type => "type"

/-- A literal, with its text as written. -/
inductive Literal where
  | int (text : String)
  | float (text : String)
  | imaginary (text : String)
  | char (text : String)
  | string (text : String)
deriving DecidableEq, Repr, Inhabited

def Literal.text : Literal → String
  | int text | float text | imaginary text | char text | string text => text

end ScriptLowering
