import ScriptLowering.Source.Text

/-!
# Paths

A path keeps the text it was written as. Its parents are found by leaving out the last step;
empty steps and `.` are no steps, except for a `.` at the very beginning.
-/

namespace ScriptLowering

/-- A path as the pieces between its slashes. The path that begins with a slash has an empty
first piece, and so has the empty path, which has no further ones. -/
structure Path where
  first : String
  rest : List String
deriving DecidableEq, Repr, Inhabited

namespace Path

def ofString (text : String) : Path :=
  match Text.pieces '/' text.toList with
  | [] => ⟨"", []⟩
  | first :: rest => ⟨String.ofList first, rest.map String.ofList⟩

def text (path : Path) : String := "/".intercalate (path.first :: path.rest)

def isEmpty (path : Path) : Bool := path.first == "" && path.rest.isEmpty

/-- The path starts at the root. -/
def isAbsolute (path : Path) : Bool := path.first == "" && !path.rest.isEmpty

/-- A piece after the first one that stays where it is. -/
def isIdle (piece : String) : Bool := piece == "" || piece == "."

/-- The path of a first piece and, in reverse, the pieces after it without idle ones at the
end. -/
def ofReversed (first : String) (pieces : List String) : Path :=
  match pieces.dropWhile isIdle with
  | [] => if first == "" then ⟨"", [""]⟩ else ⟨first, []⟩
  | pieces => ⟨first, pieces.reverse⟩

/-- The parents of a path with the pieces after the first one given in reverse. -/
def parentsFrom (first : String) : (pieces : List String) → List Path
  | [] => if first == "" then [] else [⟨"", []⟩]
  | piece :: pieces =>
    if isIdle piece then parentsFrom first pieces
    else ofReversed first pieces :: parentsFrom first pieces

/-- The parents of a path, nearest first. The last one is the root or the empty path. -/
def parents (path : Path) : List Path := parentsFrom path.first path.rest.reverse

def parent? (path : Path) : Option Path := path.parents.head?

/-- The last step, if it is a name. -/
def fileName? (path : Path) : Option String :=
  match path.rest.reverse.dropWhile isIdle with
  | ".." :: _ => none
  | piece :: _ => some piece
  | [] => if isIdle path.first || path.first == ".." then none else some path.first

/-- The entry `name` of the directory `path`. -/
def join (path : Path) (name : String) : Path :=
  if path.isEmpty then ⟨name, []⟩
  else if path.rest.getLast? == some "" then ⟨path.first, path.rest.dropLast ++ [name]⟩
  else ⟨path.first, path.rest ++ [name]⟩

end Path

end ScriptLowering
