import ScriptLowering.FileTree.Path

/-!
# File trees

Files and directories as a map from places to what stands there, with the operations a program
needs and the errors an operating system gives for them. A place is the list of names from the
root; the root itself is always a directory.
-/

namespace ScriptLowering

/-- Why an operation on files failed. -/
inductive FileError where
  | notFound
  | alreadyExists
  | notDirectory
  | isDirectory
  /-- Any other failure, in the words of the system. -/
  | other (text : String)
deriving DecidableEq, Repr, Inhabited

def FileError.message : FileError → String
  | notFound => "No such file or directory (os error 2)"
  | alreadyExists => "File exists (os error 17)"
  | notDirectory => "Not a directory (os error 20)"
  | isDirectory => "Is a directory (os error 21)"
  | other text => text

/-- What stands at a place. -/
inductive FileTree.Entry where
  | file (text : String)
  | directory
deriving DecidableEq, Repr, Inhabited

/-- Files and directories, and the directory that relative paths start from. -/
structure FileTree where
  current : List String
  entries : List (List String × FileTree.Entry)
deriving DecidableEq, Repr, Inhabited

namespace FileTree

/-- The tree that holds nothing but the current directory and those above it. -/
def emptyIn (current : List String) : FileTree where
  current
  entries := (List.range current.length).map fun n => (current.take (n + 1), .directory)

/-- What stands at a place. -/
def node? (tree : FileTree) (place : List String) : Option Entry :=
  if place.isEmpty then some .directory else tree.entries.lookup place

/-- Put an entry at a place, instead of what stood there. -/
def put (tree : FileTree) (place : List String) (entry : Entry) : FileTree :=
  { tree with entries := (place, entry) :: tree.entries.filter fun (other, _) => other != place }

/-- Follow the pieces of a path from a place. Every step, idle ones included, starts at a
directory. -/
def follow (tree : FileTree) (place : List String) : List String → Except FileError (List String)
  | [] => .ok place
  | piece :: pieces =>
    if tree.node? place != some .directory then .error .notDirectory
    else if Path.isIdle piece then tree.follow place pieces
    else if piece == ".." then tree.follow place.dropLast pieces
    else if (tree.node? (place ++ [piece])).isSome then tree.follow (place ++ [piece]) pieces
    else .error .notFound

/-- Where a path starts, and its pieces from there on. -/
def start (tree : FileTree) (path : Path) : List String × List String :=
  if path.isAbsolute then ([], path.rest) else (tree.current, path.first :: path.rest)

/-- The place a path leads to, where something has to stand. -/
def place (tree : FileTree) (path : Path) : Except FileError (List String) :=
  if path.isEmpty then .error .notFound
  else
    let (place, pieces) := tree.start path
    tree.follow place pieces

/-- What a path leads to. -/
def at? (tree : FileTree) (path : Path) : Option Entry :=
  match tree.place path with
  | .ok place => tree.node? place
  | .error _ => none

/-- The text of a file. -/
def read (tree : FileTree) (path : Path) : Except FileError String := do
  match tree.node? (← tree.place path) with
  | some (.file text) => .ok text
  | some .directory => .error .isDirectory
  | none => .error .notFound

/-- Where a new entry for a path would stand: the place of its directory, and its name. There
is none for a path that ends in `.`, `..` or at the root, whose directory exists already. -/
def slot (tree : FileTree) (path : Path) : Except FileError (List String × Option String) :=
  if path.isEmpty then .error .notFound
  else
    let (place, pieces) := tree.start path
    match pieces.reverse.dropWhile (· == "") with
    | [] => .ok (place, none)
    | name :: before => do
      let place ← tree.follow place before.reverse
      if tree.node? place != some .directory then .error .notDirectory
      else .ok (place, if name == "." || name == ".." then none else some name)

/-- Make one directory inside an existing one. -/
def makeDirectory (tree : FileTree) (path : Path) : Except FileError FileTree := do
  match ← tree.slot path with
  | (_, none) => .error .alreadyExists
  | (place, some name) =>
    if (tree.node? (place ++ [name])).isSome then .error .alreadyExists
    else .ok (tree.put (place ++ [name]) .directory)

/-- Write a file inside an existing directory, instead of one that was there. -/
def write (tree : FileTree) (path : Path) (text : String) : Except FileError FileTree := do
  match ← tree.slot path with
  | (_, none) => .error .isDirectory
  | (place, some name) =>
    if path.rest.getLast? == some "" || tree.node? (place ++ [name]) == some .directory then
      .error .isDirectory
    else .ok (tree.put (place ++ [name]) (.file text))

end FileTree

end ScriptLowering
