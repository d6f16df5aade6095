/-!
# Field types

A field holds a base type, a reference to a definition or a map. References name their target by
package and name and also by the address of the definition.
-/

namespace SchemaGen

/-- The number of a schema file in its graph. -/
abbrev FileId := Nat

/-- The two kinds of definitions. -/
inductive DefinitionKind where
  | message
  | enumeration
deriving DecidableEq, Repr

/-- The address of a definition: its file, its kind and its place among the definitions of that
kind in the file. -/
structure DefinitionId where
  file : FileId
  kind : DefinitionKind
  index : Nat
deriving DecidableEq, Repr

/-- The types that need no definition. -/
inductive BaseType where
  | int64
  | int32
  | string
  | bool
  | float
  | double
  | bytes
deriving DecidableEq, Repr

namespace BaseType

/-- All base types. -/
def all : List BaseType := [int64, int32, string, bool, float, double, bytes]

/-- How a base type is written in a schema. -/
def name : BaseType → String
  | int64 => "int64"
  | int32 => "int32"
  | string => "string"
  | bool => "bool"
  | float => "float"
  | double => "double"
  | bytes => "bytes"

/-- The base type that is written `name`. -/
def ofName? (name : String) : Option BaseType :=
  all.find? fun base => base.name = name

end BaseType

/-- The type of a field. -/
inductive FieldType where
  | base (base : BaseType)
  | reference (package : Option String) (name : String) (target : DefinitionId)
  | map (key value : FieldType)
deriving DecidableEq, Repr

/-- Puts every reference that names no package into `package`. -/
def FieldType.withPackage (package : String) : FieldType → FieldType
  | base b => base b
  | reference p name target => reference (some (p.getD package)) name target
  | map key value => map (key.withPackage package) (value.withPackage package)

/-- How many values a field holds. -/
inductive Cardinality where
  | singular
  | repeated
deriving DecidableEq, Repr

/-- How a cardinality is written. -/
def Cardinality.name : Cardinality → String
  | singular => "singular"
  | repeated => "repeated"

end SchemaGen
