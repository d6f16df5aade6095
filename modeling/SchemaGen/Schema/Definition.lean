import SchemaGen.Schema.Described
import SchemaGen.Schema.FieldType

/-!
# Definitions

Messages with fields and enumerations with constants. A definition knows the file that owns it and a
member knows its place in the definition.
-/

namespace SchemaGen

/-- A field of a message. -/
structure Field extends Described where
  number : Int
  index : Nat
  type : FieldType
  cardinality : Cardinality
deriving DecidableEq, Repr

/-- A constant of an enumeration. -/
structure Constant extends Described where
  number : Int
  index : Nat
deriving DecidableEq, Repr

/-- A message. -/
structure Message extends Described where
  owner : FileId
  fields : List Field
deriving DecidableEq, Repr

/-- An enumeration. -/
structure Enumeration extends Described where
  owner : FileId
  constants : List Constant
deriving DecidableEq, Repr

/-- The fields that something is generated for, in order. -/
def Message.kept (m : Message) : List Field :=
  m.fields.filter (!·.isSkipped)

/-- The constants that something is generated for, in order. -/
def Enumeration.kept (e : Enumeration) : List Constant :=
  e.constants.filter (!·.isSkipped)

/-- A definition of either kind. -/
inductive Definition where
  | message (m : Message)
  | enumeration (e : Enumeration)
deriving DecidableEq, Repr

namespace Definition

/-- What a definition shares with every named part of a schema. -/
def described : Definition → Described
  | message m => m.toDescribed
  | enumeration e => e.toDescribed

/-- The file that owns the definition. -/
def owner : Definition → FileId
  | message m => m.owner
  | enumeration e => e.owner

/-- The name of the definition. -/
def name (d : Definition) : String :=
  d.described.name

/-- The kind of the definition. -/
def kind : Definition → DefinitionKind
  | message _ => .message
  | enumeration _ => .enumeration

end Definition

end SchemaGen
