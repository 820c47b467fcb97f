import ScriptLowering.Grammar.Parse
import ScriptLowering.Lowering.Engine
import ScriptLowering.Scope.Collect
import ScriptLowering.Settings.Basic
import ScriptLowering.Token.Scan

/-!
# From source text to lowered text

The stages put together. Each one either gives its result or all reports of the stage that
failed.
-/

namespace ScriptLowering

/-- What a lowering that stopped reports. -/
def Lowering.Halt.failure : Lowering.Halt → Failure
  | fatal report => .reports [report]
  | outOfFuel => .outOfFuel

namespace SourceFile

/-- Scan and parse a source; `file` is the number its spans carry. -/
def ofSource (options : Token.ScanOptions) (file : Nat) (source : String) :
    Except Failure SourceFile := do
  Grammar.parseFile file (← (Token.ofSource options file source).mapError .reports)

/-- Scan and parse a source, and check that it can be lowered as far as its form goes. -/
def checkSource (settings : Settings) (source : String) : Except Failure Unit := do
  (← ofSource settings.scan 0 source).check.mapError fun report => .reports [report]

/-- Scan, parse and lower a source, with types found by scope. -/
def lowerSource (settings : Settings) (source : String) : Except Failure Lowered := do
  let file ← ofSource settings.scan 0 source
  (file.lower (Table.ofFile file).resolver settings.lower).mapError Lowering.Halt.failure

end SourceFile

/-- The text of a lowered file. -/
def Lowered.text (lowered : Lowered) : String := lowered.file.render

end ScriptLowering
