import ScriptLowering.Tree.Basic

/-!
# Statement sequences by identity

Insertion into a sequence, at an index or beside a statement. A statement is found by its
identity and never by what it says: two statements that print alike are different ones.
-/

namespace ScriptLowering.Sequence

/-- Insert `x` so that it ends up at `index`, or at the end when the index lies past it. Also
gives the index used. -/
def insertAt {α : Type} (seq : List α) (index : Nat) (x : α) : Nat × List α :=
  let place := min index seq.length
  (place, seq.insertIdx place x)

/-- The position of the first statement with identity `id`. -/
def position? (seq : List Stmt) (id : NodeId) : Option Nat :=
  seq.findIdx? fun stmt => stmt.id == id

/-- Insert `stmt` just before the statement with identity `anchor`. -/
def insertBefore? (seq : List Stmt) (anchor : NodeId) (stmt : Stmt) : Option (Nat × List Stmt) :=
  (position? seq anchor).map fun index => insertAt seq index stmt

/-- Insert `stmt` just after the statement with identity `anchor`. -/
def insertAfter? (seq : List Stmt) (anchor : NodeId) (stmt : Stmt) : Option (Nat × List Stmt) :=
  (position? seq anchor).map fun index => insertAt seq (index + 1) stmt

/-- Insert statements one after the other just before the one with identity `anchor`. A statement
that finds no anchor is dropped. -/
def insertAllBefore (seq : List Stmt) (anchor : NodeId) (stmts : List Stmt) : List Stmt :=
  stmts.foldl (fun seq stmt => ((insertBefore? seq anchor stmt).map Prod.snd).getD seq) seq

/-- Insert statements just after the one with identity `anchor`, the last of them first. -/
def insertAllAfter (seq : List Stmt) (anchor : NodeId) (stmts : List Stmt) : List Stmt :=
  stmts.foldr (fun stmt seq => ((insertAfter? seq anchor stmt).map Prod.snd).getD seq) seq

/-- Let `new` stand for the statement at `index`, which has the identity `anchor`. The one of them
that keeps the identity takes the place, or the first one when none does, and the others are
inserted beside it. -/
def replaceAt (seq : List Stmt) (index : Nat) (anchor : NodeId) (new : List Stmt) : List Stmt :=
  let keeper := (position? new anchor).getD 0
  match new.drop keeper with
  | [] => seq
  | stmt :: behind =>
    let placed := insertAllBefore (seq.set index stmt) stmt.id (new.take keeper)
    insertAllAfter placed stmt.id behind

end ScriptLowering.Sequence
