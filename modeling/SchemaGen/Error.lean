import SchemaGen.Catalog.Error
import SchemaGen.Settings.Error
import SchemaGen.Target.Vocabulary

/-!
# Why a run fails
-/

namespace SchemaGen

/-- Why a run fails. -/
inductive RunError where
  | settings (error : SettingsError)
  | load (error : LoadError)
  | type (error : TypeError)
  /-- An output file cannot be written. -/
  | file (path : Path) (cause : FileError)
  /-- A line was to be written while no file was open. -/
  | noOutput
deriving DecidableEq, Repr

/-- The text of the error. -/
def RunError.message : RunError → String
  | settings error => s!"Config error: {error.message}"
  | load error => s!"Schema error: {error.message}"
  | type error => s!"Type error: {error.message}"
  | file path cause => s!"I/O error on {path.text}: {cause.message}"
  | noOutput => "no output file is open"

end SchemaGen
