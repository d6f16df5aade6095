import SchemaGen.Text.Substring

/-!
# Names with a description

Messages, enumerations, fields and constants have a name, may have a comment and may be marked as
ignored. A comment that holds the marker `@deprecated` deprecates what it describes. Deprecated and
ignored things stay in the schema, where others may refer to them, but nothing is generated for
them.
-/

namespace SchemaGen

/-- What every named part of a schema has. -/
structure Described where
  name : String
  comment : Option String
  ignored : Bool
deriving DecidableEq, Repr

/-- The marker that deprecates what a comment describes. -/
def deprecationMarker : String := "@deprecated"

namespace Described

/-- Whether the comment holds the deprecation marker. -/
def isDeprecated (d : Described) : Bool :=
  d.comment.any fun comment => Text.occursIn deprecationMarker.toList comment.toList

/-- Whether nothing is generated for this part. -/
def isSkipped (d : Described) : Bool :=
  d.ignored || d.isDeprecated

end Described

end SchemaGen
