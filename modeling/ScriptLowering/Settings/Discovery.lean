import ScriptLowering.FileTree.Access
import ScriptLowering.Settings.Basic

/-!
# Where settings come from

Unless a file is named, settings are those of the nearest settings file in the directory of the
input or above it, and the defaults when there is none.
-/

namespace ScriptLowering.Settings

/-- The name of a settings file. -/
def fileName : String := "gopawn.toml"

/-- Settings with the file they were read from. -/
structure Found where
  settings : Settings := {}
  source : Option Path := none

variable {m : Type → Type} [Monad m]

/-- The nearest settings file in a directory or above it. -/
def find? (files : FileAccess m) (directory : Path) : m (Option Path) :=
  files.firstPresent? ((directory :: directory.parents).map (·.join fileName))

/-- Read settings from a file. -/
def load (files : FileAccess m) (path : Path) : m (Except Diagnostic Found) := do
  match ← files.read path with
  | .ok text =>
    return (ofText path.text text).map fun settings => { settings, source := some path }
  | .error error =>
    return .error (.error .settings s!"cannot read '{path.text}': {error.message}" .origin)

/-- The settings for inputs in a directory. -/
def discover (files : FileAccess m) (directory : Path) : m (Except Diagnostic Found) := do
  match ← find? files directory with
  | some path => load files path
  | none => return .ok {}

end ScriptLowering.Settings
