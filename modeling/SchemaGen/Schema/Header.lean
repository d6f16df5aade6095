/-!
# File headers

The statements of a schema file that are no definitions: its syntax level, its package, its imports
and its options.
-/

namespace SchemaGen

/-- What a header states. -/
inductive HeaderKind where
  /-- The level of the schema language, written with the keyword `syntax`. -/
  | level
  | package
  | importing
  | option
deriving DecidableEq, Repr

/-- The keyword that starts such a header. -/
def HeaderKind.keyword : HeaderKind → String
  | .level => "syntax"
  | .package => "package"
  | .importing => "import"
  | .option => "option"

/-- A header. Levels and packages are named by their keyword and imports by their path. -/
structure Header where
  kind : HeaderKind
  name : String
  value : String
deriving DecidableEq, Repr

end SchemaGen
