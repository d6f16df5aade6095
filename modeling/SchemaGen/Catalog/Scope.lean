import SchemaGen.Catalog.Error
import SchemaGen.Document
import SchemaGen.Schema.Graph

/-!
# What names mean in a file

A type name means a definition of the file itself or of a file that it depends on. A name with a
package in front means a definition of a file with that package. A name without one means the file's
own definition before any other, and among the others one of the same package before the rest.
-/

namespace SchemaGen

/-- The names that a file sees. -/
structure Scope where
  graph : Graph
  package : Option String
  /-- The definitions of the file; where a name is defined twice, the later one counts. -/
  own : List (String × DefinitionId)
  /-- The files that the file depends on, in order. -/
  dependencies : List FileId

namespace Scope

/-- The definitions that a document declares, if its file has the number `id`. -/
def declared (id : FileId) (d : Document) : List (String × DefinitionId) :=
  (d.messages.zipIdx.map fun (m, index) => (m.name, ⟨id, .message, index⟩)) ++
    d.enums.zipIdx.map fun (e, index) => (e.name, ⟨id, .enumeration, index⟩)

/-- The file's own definition of `name`. -/
def own? (s : Scope) (name : String) : Option DefinitionId :=
  s.own.reverse.lookup name

/-- The definition of `name` in the first file depended on that satisfies `p` and has one. -/
def imported? (s : Scope) (p : SchemaFile → Bool) (name : String) : Option DefinitionId :=
  s.dependencies.findSome? fun id =>
    (s.graph.file? id).bind fun f => if p f then f.definitionId? name else none

/-- A name without the dots in front of it. -/
def bareName (name : String) : String :=
  String.ofList (name.toList.dropWhile (· = '.'))

/-- The package that a name gives in front of its last dot, and the definition that it means. -/
def lookup? (s : Scope) (name : String) : Option (Option String × DefinitionId) :=
  match Text.splitLast? '.' (bareName name) with
  | some (package, short) =>
    let own := if s.package = some package then s.own? short else none
    (own.or (s.imported? (·.package? = some package) short)).map fun id => (some package, id)
  | none =>
    let name := bareName name
    ((s.own? name).or ((s.imported? (·.package? = s.package) name).or
      (s.imported? (fun _ => true) name))).map fun id => (none, id)

/-- What stands behind the last dot of a name. -/
def shortName (name : String) : String :=
  match Text.splitLast? '.' name with
  | some (_, short) => short
  | none => name

/-- The type that is written `name` in the field `field` of the file `file`. -/
def namedType (s : Scope) (file field name : String) : Except LoadError FieldType :=
  match BaseType.ofName? name with
  | some base => .ok (.base base)
  | none =>
    match s.lookup? name with
    | some (package, target) => .ok (.reference package (shortName name) target)
    | none => .error (.unknownType file name field)

/-- The type that a field declares. -/
def fieldType (s : Scope) (file field : String) : TypeExpr → Except LoadError FieldType
  | .named name => s.namedType file field name
  | .map key value => do
    let key ← s.namedType file field key
    let value ← s.namedType file field value
    return .map key value

/-- The field that a declaration stands for, at its place in the message. -/
def field (s : Scope) (file : String) (d : FieldDecl × Nat) : Except LoadError Field := do
  let type ← s.fieldType file d.1.name d.1.type
  return { d.1 with index := d.2, type }

/-- The message that a declaration stands for. -/
def message (s : Scope) (file : String) (id : FileId) (d : Declaration FieldDecl) :
    Except LoadError Message := do
  let fields ← d.members.zipIdx.mapM (s.field file)
  return { d with owner := id, fields }

/-- The enumeration that a declaration stands for. -/
def enumeration (id : FileId) (d : Declaration ConstantDecl) : Enumeration :=
  { d with
    owner := id
    constants := d.members.zipIdx.map fun (c, index) => { c with index } }

end Scope

namespace SchemaFile

/-- The names that the file sees if it has the headers and the dependencies that it will have and
declares `d`. -/
def scope (f : SchemaFile) (g : Graph) (d : Document) : Scope :=
  ⟨g, f.package?, Scope.declared f.id d, f.dependencies⟩

/-- The file with a definition more. -/
def declare (f : SchemaFile) (d : Definition) : Except LoadError SchemaFile :=
  match (register d).run f with
  | (.ok _, f) => .ok f
  | (.error e, _) => .error (.registration e)

/-- The file with a message more. The types of the message are looked up before it is registered. -/
def declareMessage (s : Scope) (f : SchemaFile) (m : MessageDecl) :
    Except LoadError SchemaFile := do
  let m ← s.message f.file.slashed f.id m
  f.declare (.message m)

/-- The file with an enumeration more. -/
def declareEnumeration (f : SchemaFile) (e : EnumDecl) : Except LoadError SchemaFile :=
  f.declare (.enumeration (Scope.enumeration f.id e))

/-- The file with all that a document declares. Definitions are registered one by one, messages
first. -/
def fill (f : SchemaFile) (g : Graph) (d : Document) : Except LoadError SchemaFile := do
  let f := d.headers.foldl addHeader f
  let f ← d.messages.foldlM (declareMessage (f.scope g d)) f
  d.enums.foldlM declareEnumeration f

end SchemaFile

end SchemaGen
