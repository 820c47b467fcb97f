import ScriptLowering.Source.Bytes
import ScriptLowering.Token.Basic
import ScriptLowering.Token.Fault

/-!
# Numeric literals

A numeral is a decimal or hexadecimal digit run with an optional fraction and exponent. What
is glued on behind it belongs to the same, then malformed, lexeme.
-/

namespace ScriptLowering.Token

/-- A numeral at the beginning of a text: how many characters it takes, its kind, and what is
wrong with it. A faulty numeral counts as an integer. -/
structure Numeral where
  length : Nat
  kind : Kind
  fault : Option Fault := none
deriving DecidableEq, Repr, Inhabited

namespace Numeral

/-- The number of characters at the beginning of `cs` that satisfy `p`. -/
def run (p : Char → Bool) (cs : List Char) : Nat := (cs.takeWhile p).length

/-- The first `length` characters as a faulty numeral; the fault may quote them. -/
def faulty (cs : List Char) (length : Nat) (fault : String → Fault) : Numeral :=
  { length, kind := .int, fault := some (fault (String.ofList (cs.take length))) }

/-- A sound part of a numeral, or the faulty numeral it makes. -/
abbrev Part := Except Numeral (Nat × Kind)

/-- An exponent whose mark stands after `length` characters of `cs`: an optional sign and at
least one digit. -/
def exponent (cs : List Char) (length : Nat) : Part :=
  let signed := match cs.drop (length + 1) with
    | '+' :: _ | '-' :: _ => length + 2
    | _ => length + 1
  let digits := run Char.isDigit (cs.drop signed)
  if digits = 0 then .error (faulty cs signed .exponentWithoutDigits)
  else .ok (signed + digits, .float)

/-- A numeral that begins with `0x`. A fraction needs a binary exponent. -/
def hexadecimal (cs : List Char) : Part :=
  let whole := run Source.isHexDigit (cs.drop 2)
  let fraction := match cs.drop (2 + whole) with
    | '.' :: digits => some (run Source.isHexDigit digits)
    | _ => none
  let length := 2 + whole + (fraction.map (· + 1)).getD 0
  if whole = 0 ∧ fraction.getD 0 = 0 then .error (faulty cs length fun _ => .hexWithoutDigits)
  else match cs.drop length with
    | 'p' :: _ | 'P' :: _ => exponent cs length
    | _ =>
      if fraction.isSome then .error (faulty cs length fun _ => .hexWithoutExponent)
      else .ok (length, .int)

/-- Any other numeral. A point followed by a second point is no fraction. -/
def decimal (cs : List Char) : Part :=
  let whole := run Char.isDigit cs
  let (length, kind) : Nat × Kind := match cs.drop whole with
    | '.' :: '.' :: _ => (whole, .int)
    | '.' :: digits => (whole + 1 + run Char.isDigit digits, .float)
    | _ => (whole, .int)
  match cs.drop length with
  | 'e' :: _ | 'E' :: _ => exponent cs length
  | _ => .ok (length, kind)

/-- Look behind a sound numeral of `length` characters for an imaginary mark or for anything
that cannot stand there. -/
def complete (cs : List Char) (length : Nat) (kind : Kind) : Numeral :=
  match cs.drop length with
  | [] => { length, kind }
  | c :: rest =>
    if c == 'i' && !(rest.head?.any Source.isNameRest) then
      faulty cs (length + 1) .imaginary
    else if Source.isNameRest c || (c == '.' && kind == .float) then
      let tail := run (fun c => Source.isNameRest c || c == '.') (c :: rest)
      faulty cs (length + tail) .malformedNumber
    else { length, kind }

/-- The numeral at the beginning of `cs`, which starts with a digit or with a point and a
digit. -/
def read (cs : List Char) : Numeral :=
  let part := match cs with
    | '0' :: 'x' :: _ | '0' :: 'X' :: _ => hexadecimal cs
    | _ => decimal cs
  match part with
  | .ok (length, kind) => complete cs length kind
  | .error numeral => numeral

end Numeral

end ScriptLowering.Token
