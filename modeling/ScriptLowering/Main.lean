import ScriptLowering.CommandLine.Run

/-!
# The program

Reads the words of the command line, works on the files of the machine, and prints.
-/

namespace ScriptLowering.CommandLine

/-- A failure of the machine as a failure on files. Its codes come with either sign. -/
def fileError (error : IO.Error) : FileError :=
  match error with
  | .noFileOrDirectory .. => .notFound
  | .alreadyExists .. => .alreadyExists
  | .inappropriateType _ code _ =>
    if code == 21 || code == 0 - 21 then .isDirectory else .notDirectory
  | error => .other (toString error)

/-- Run an action and keep its failure as a value. -/
def attempt {α : Type} (action : IO α) : IO (Except FileError α) := do
  match ← action.toBaseIO with
  | .ok a => return .ok a
  | .error error => return .error (fileError error)

/-- A path as an entry of the machine's file system. -/
def machineEntry (path : Path) : IO.FS.DirEntry := { root := path.text, fileName := "" }

/-- Access to the files of the machine. -/
def machineFiles : FileAccess IO where
  read path := attempt (IO.FS.readFile path.text)
  isPresent path := (machineEntry path).root.pathExists
  isDirectory path := (machineEntry path).root.isDir
  makeDirectory path := attempt (IO.FS.createDir path.text)
  write path text := attempt (IO.FS.writeFile path.text text)

end ScriptLowering.CommandLine

def main (words : List String) : IO UInt32 := do
  let outcome ← ScriptLowering.CommandLine.run ScriptLowering.CommandLine.machineFiles words
  IO.eprint outcome.reports
  IO.print outcome.output
  return outcome.code.toUInt32
