import SchemaGen.Json
import SchemaGen.Schema.File

/-!
# Schema files as JSON

The JSON form shows a file with all it declares, and with its map from names to definitions.
-/

namespace SchemaGen

namespace Dump

/-- A kind of definition. -/
def definitionKind : DefinitionKind → Json
  | .message => .string "message"
  | .enumeration => .string "enum"

/-- An address. -/
def definitionId (id : DefinitionId) : Json :=
  .object [("proto", .int id.file), ("kind", definitionKind id.kind), ("index", .int id.index)]

/-- A header. -/
def header (h : Header) : Json :=
  .object [("kind", .string h.kind.keyword), ("name", .string h.name), ("value", .string h.value)]

/-- A field type, under a key that says which kind of type it is. -/
def fieldType : FieldType → Json
  | .base b => .object [("base", .string b.name)]
  | .reference package name target =>
    .object [("ref", .object [("package", .ofText? package), ("name", .string name),
      ("target", definitionId target)])]
  | .map key value =>
    .object [("map", .object [("key", fieldType key), ("value", fieldType value)])]

/-- What fields and constants have in common. -/
def member (d : Described) (number : Int) (index : Nat) : List (String × Json) :=
  [("name", .string d.name), ("number", .int number), ("index", .int index),
   ("comment", .ofText? d.comment), ("ignored", .bool d.ignored)]

/-- A field. -/
def field (f : Field) : Json :=
  .object (member f.toDescribed f.number f.index ++
    [("type", fieldType f.type), ("cardinality", .string f.cardinality.name)])

/-- A constant. -/
def constant (c : Constant) : Json :=
  .object (member c.toDescribed c.number c.index)

/-- A definition with the JSON form of its members. -/
def definition (d : Described) (members : List Json) : Json :=
  .object [("name", .string d.name), ("fields", .array members), ("comment", .ofText? d.comment),
    ("ignored", .bool d.ignored)]

/-- A schema file. -/
def schemaFile (f : SchemaFile) : Json :=
  .object [
    ("root_dir", .string f.rootDir.text),
    ("file", .string f.file.text),
    ("path", .string f.path.text),
    ("headers", .array (f.headers.map header)),
    ("imports", .array (f.imports.map header)),
    ("options", .array (f.options.map header)),
    ("messages", .array (f.messages.map fun m => definition m.toDescribed (m.fields.map field))),
    ("enums", .array (f.enums.map fun e => definition e.toDescribed (e.constants.map constant))),
    ("definitions", .object (f.definitions.entries.map fun e => (e.1, definitionId e.2)))]

end Dump

/-- The JSON text of a schema file. -/
def SchemaFile.dump (f : SchemaFile) : String :=
  (Dump.schemaFile f).render

end SchemaGen
