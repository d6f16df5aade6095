import SchemaGen.Schema.Described
import SchemaGen.Schema.FieldType
import SchemaGen.Schema.Header
import SchemaGen.Text.Position

/-!
# Schema documents

A schema text as written: headers and definitions in order, types by name only. The position of a
declaration is that of its name.
-/

namespace SchemaGen

open Text (Position)

/-- A field type as written, before its names are looked up. -/
inductive TypeExpr where
  | named (name : String)
  | map (key value : String)
deriving DecidableEq, Repr

/-- A field of a message as written. -/
structure FieldDecl extends Described where
  number : Int
  type : TypeExpr
  cardinality : Cardinality
  position : Position
deriving DecidableEq, Repr

/-- A constant of an enumeration as written. -/
structure ConstantDecl extends Described where
  number : Int
  position : Position
deriving DecidableEq, Repr

/-- A definition as written, with members of type `μ`. -/
structure Declaration (μ : Type) extends Described where
  members : List μ
  position : Position
deriving DecidableEq, Repr

/-- A message as written. -/
abbrev MessageDecl := Declaration FieldDecl

/-- An enumeration as written. -/
abbrev EnumDecl := Declaration ConstantDecl

/-- A schema text as written. -/
structure Document where
  headers : List Header
  messages : List MessageDecl
  enums : List EnumDecl
deriving DecidableEq, Repr

/-- The paths that a document imports, in order. -/
def Document.imports (d : Document) : List String :=
  (d.headers.filter (·.kind = .importing)).map (·.value)

end SchemaGen
