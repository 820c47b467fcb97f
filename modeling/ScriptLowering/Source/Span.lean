/-!
# Places in source text

A `Span` is a half-open range of byte offsets in one file. Every token, tree node and
diagnostic carries one, so that a report can point at the text it speaks about.
-/

namespace ScriptLowering

/-- The bytes `start ..< stop` of the file numbered `file`. -/
structure Span where
  file : Nat
  start : Nat
  stop : Nat
deriving DecidableEq, Repr, Inhabited

namespace Span

/-- The empty span at the beginning of file 0, for nodes that stand nowhere in particular. -/
def origin : Span := ⟨0, 0, 0⟩

/-- The empty span at offset `pos`. -/
def point (file pos : Nat) : Span := ⟨file, pos, pos⟩

/-- The least span that covers both. The file of the first is kept: joining spans of
different files has no meaning, see `join?`. -/
def join (a b : Span) : Span := ⟨a.file, min a.start b.start, max a.stop b.stop⟩

/-- `join` where it has a meaning: both spans lie in one file. -/
def join? (a b : Span) : Option Span :=
  if a.file = b.file then some (a.join b) else none

/-- `b` lies entirely inside `a`. -/
def contains (a b : Span) : Bool :=
  a.file == b.file && a.start ≤ b.start && b.stop ≤ a.stop

/-- Number of bytes covered. -/
def width (a : Span) : Nat := a.stop - a.start

theorem contains_iff {a b : Span} :
    a.contains b = true ↔ a.file = b.file ∧ a.start ≤ b.start ∧ b.stop ≤ a.stop := by
  simp [contains, and_assoc]

@[simp] theorem join_self (a : Span) : a.join a = a := by
  simp [join]

end Span

/-- A value together with the place it was written at. -/
structure Located (α : Type) where
  val : α
  span : Span
deriving DecidableEq, Repr, Inhabited

/-- A name as written. -/
abbrev Name := Located String

end ScriptLowering
