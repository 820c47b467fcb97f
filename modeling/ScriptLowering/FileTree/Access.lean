import ScriptLowering.FileTree.Basic

/-!
# Access to files

What the program asks of a file system, whether it is a `FileTree` or the one of the machine.
-/

namespace ScriptLowering

/-- The operations on files, each with its effect in `m`. -/
structure FileAccess (m : Type → Type) where
  read : Path → m (Except FileError String)
  isPresent : Path → m Bool
  isDirectory : Path → m Bool
  makeDirectory : Path → m (Except FileError Unit)
  write : Path → String → m (Except FileError Unit)

namespace FileAccess

/-- Run a step that changes the tree when it succeeds. -/
def updating (step : FileTree → Except FileError FileTree) :
    StateM FileTree (Except FileError Unit) := fun tree =>
  match step tree with
  | .ok tree => (.ok (), tree)
  | .error error => (.error error, tree)

/-- Access to a file tree held as state. -/
def ofTree : FileAccess (StateM FileTree) where
  read path := return (← get).read path
  isPresent path := return ((← get).at? path).isSome
  isDirectory path := return (← get).at? path == some .directory
  makeDirectory path := updating fun tree => tree.makeDirectory path
  write path text := updating fun tree => tree.write path text

variable {m : Type → Type} [Monad m]

/-- Make a directory; one that is there already will do. -/
def ensureDirectory (files : FileAccess m) (path : Path) : m (Except FileError Unit) := do
  match ← files.makeDirectory path with
  | .ok () => return .ok ()
  | .error error =>
    if error == .notFound then return .error error
    else if ← files.isDirectory path then return .ok ()
    else return .error error

/-- Make the first of the directories, after the next ones if it lacks a parent. The empty path
needs none. -/
def ensureAll (files : FileAccess m) : List Path → m (Except FileError Unit)
  | [] => return .ok ()
  | path :: parents => do
    if path.isEmpty then return .ok ()
    match ← files.ensureDirectory path with
    | .error .notFound =>
      match ← files.ensureAll parents with
      | .ok () => files.ensureDirectory path
      | .error error => return .error error
    | result => return result

/-- Make a directory and those above it that are missing. -/
def makeDirectories (files : FileAccess m) (path : Path) : m (Except FileError Unit) :=
  files.ensureAll (path :: path.parents)

/-- The first of the paths that leads to something. -/
def firstPresent? (files : FileAccess m) : List Path → m (Option Path)
  | [] => return none
  | path :: paths => do
    if ← files.isPresent path then return some path else files.firstPresent? paths

end FileAccess

/-- Put a file, or with a path that ends in a slash a directory, into a tree, with the
directories above it. -/
def FileTree.add (tree : FileTree) (path : Path) (text : String) : FileTree :=
  let files := FileAccess.ofTree
  let placing : StateM FileTree Unit := do
    if path.rest.getLast? == some "" then
      let _ ← files.makeDirectories path
    else
      if let some parent := path.parent? then
        let _ ← files.makeDirectories parent
      let _ ← files.write path text
  (placing.run tree).2

end ScriptLowering
