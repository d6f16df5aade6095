import SchemaGen.FileSystem
import SchemaGen.Schema.File
import SchemaGen.SyntaxError

/-!
# Why a schema file cannot be loaded
-/

namespace SchemaGen

/-- Why a schema file cannot be loaded. Files are named as seen from the schema root. -/
inductive LoadError where
  | unreadable (path : Path) (cause : FileError)
  /-- The file is not UTF-8 from this position on. -/
  | notText (file : String) (position : Text.Position)
  | invalid (file : String) (error : SyntaxError)
  | unresolvedImport (file imported : String)
  | importCycle (file imported : String)
  /-- A field has a type that is not defined. -/
  | unknownType (file name field : String)
  | registration (error : RegistrationError)
deriving DecidableEq, Repr

namespace LoadError

/-- The message for a fault at a position of a file. -/
def faultMessage (file : String) (p : Text.Position) (fault : String) : String :=
  s!"{file}: parse error at line {p.line}, column {p.column}: {fault}"

/-- The text of the error. -/
def message : LoadError → String
  | unreadable path cause => s!"cannot read {path.text}: {cause.message}"
  | notText file position => faultMessage file position "invalid UTF-8"
  | invalid file error => faultMessage file error.position error.cause.message
  | unresolvedImport file imported => s!"{file}: cannot resolve import {imported}"
  | importCycle file imported => s!"{file}: import cycle through {imported}"
  | unknownType file name field => s!"{file}: the type {name} is not defined for field {field}"
  | registration error => error.message

/-- Whether a run may leave the file out and go on. -/
def isAdvisory : LoadError → Bool
  | unreadable .. => true
  | _ => false

end LoadError

end SchemaGen
