import SchemaGen.FileSystem
import SchemaGen.Settings.Fault
import SchemaGen.SkipList

/-!
# Why settings cannot be used
-/

namespace SchemaGen

/-- Why settings cannot be read or used. -/
inductive SettingsError where
  | unreadable (path : Path) (cause : FileError)
  /-- The settings file is not UTF-8. -/
  | notText (path : Path)
  | invalid (path : Path) (fault : Settings.Fault)
  /-- A skip pattern is too large. -/
  | skipPattern (pattern : String)
  /-- The output root cannot be made. -/
  | outputRoot (path : Path) (cause : FileError)
  /-- Nobody may write to the output root. -/
  | protectedRoot (path : Path)
deriving DecidableEq, Repr

/-- The text of the error. -/
def SettingsError.message : SettingsError → String
  | unreadable path cause => s!"cannot read config {path.text}: {cause.message}"
  | notText path => s!"cannot read config {path.text}: stream did not contain valid UTF-8"
  | invalid path fault => s!"invalid config {path.text}: {fault.message}"
  | skipPattern pattern =>
    let limit := PatternCosts.usual.limit
    s!"invalid skip pattern \"{pattern}\": Compiled regex exceeds size limit of {limit} bytes."
  | outputRoot path cause => s!"output root {path.text} is not usable: {cause.message}"
  | protectedRoot path => s!"output root {path.text} is not usable: read-only"

end SchemaGen
