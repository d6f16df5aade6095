import SchemaGen.Path

/-!
# Settings

What a run can be told beside its roots: which files to leave out, where the generated files go, how
they are named, and which files count as schemas. Every setting has a value if none is given.
-/

namespace SchemaGen

/-- The settings of a run. -/
structure Settings where
  /-- Skip patterns, relative to the schema root. -/
  skip : List String
  /-- The output root. -/
  outDir : Path
  /-- The extension of generated files with its dot, if it is not to be the target's own. -/
  fileExt : Option String
  /-- The name that generated files are marked with. -/
  tool : String
  /-- The extension of schema files in directories, without a dot. -/
  schemaExt : String
deriving DecidableEq, Repr

/-- The extension of schema files if none is given. -/
def Settings.defaultSchemaExt : String := "proto"

/-- The settings if none are given. -/
def Settings.default : Settings where
  skip := []
  outDir := ⟨"generated"⟩
  fileExt := none
  tool := "pbgen"
  schemaExt := defaultSchemaExt

end SchemaGen
