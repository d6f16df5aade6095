import SchemaGen.Path
import SchemaGen.Schema.Definition
import SchemaGen.Schema.Header
import SchemaGen.Schema.NameMap

/-!
# Schema files

One schema file: its headers, its definitions in order, and a map from their names to their
addresses. Headers are kept by name, a later one in the place of an earlier one of the same name. A
definition can be registered once there is a package, under a name that the map does not have.
-/

namespace SchemaGen

/-- Why a definition cannot be registered. -/
inductive RegistrationError where
  | missingPackage (file : Path) (name : String)
  | duplicate (file : Path) (name : String)
deriving DecidableEq, Repr

/-- The text of the error. -/
def RegistrationError.message : RegistrationError → String
  | missingPackage file name => s!"{file.text}: package must be declared before \"{name}\""
  | duplicate file name => s!"{file.text}: \"{name}\" is defined twice"

/-- Puts a header in the place of the one with its name, or behind all others. -/
def Header.putInto (h : Header) : List Header → List Header
  | [] => [h]
  | other :: rest => if other.name = h.name then h :: rest else other :: h.putInto rest

/-- The value of the header named `name`. -/
def Header.valueIn? (name : String) (headers : List Header) : Option String :=
  (headers.find? (·.name = name)).map (·.value)

/-- A schema file. Its absolute path tells it from every other. -/
structure SchemaFile where
  id : FileId
  /-- The schema root that the file was loaded from. -/
  rootDir : Path
  /-- The path of the file as seen from the schema root. -/
  file : Path
  /-- The absolute path of the file. -/
  path : Path
  headers : List Header
  imports : List Header
  options : List Header
  messages : List Message
  enums : List Enumeration
  /-- The addresses of the registered definitions, by name. -/
  definitions : NameMap DefinitionId
  /-- All files that the file depends on, each behind those it depends on itself. -/
  dependencies : List FileId
deriving DecidableEq, Repr

namespace SchemaFile

/-- A schema file without contents. -/
def empty (id : FileId) (rootDir file path : Path) : SchemaFile where
  id
  rootDir
  file
  path
  headers := []
  imports := []
  options := []
  messages := []
  enums := []
  definitions := .empty
  dependencies := []

/-! ## Headers -/

/-- The file with one more header. Imports and options have lists of their own. -/
def addHeader (f : SchemaFile) (h : Header) : SchemaFile :=
  match h.kind with
  | .importing => { f with imports := h.putInto f.imports }
  | .option => { f with options := h.putInto f.options }
  | .level | .package => { f with headers := h.putInto f.headers }

/-- The value of the option `name`. -/
def option? (f : SchemaFile) (name : String) : Option String :=
  Header.valueIn? name f.options

/-- The package of the file. -/
def package? (f : SchemaFile) : Option String :=
  Header.valueIn? "package" f.headers

/-- The level of the schema language that the file is written in. -/
def level? (f : SchemaFile) : Option String :=
  Header.valueIn? "syntax" f.headers

/-! ## Definitions -/

/-- The address of the definition named `name`. -/
def definitionId? (f : SchemaFile) (name : String) : Option DefinitionId :=
  f.definitions.get? name

/-- The definition of the given kind at the given place. -/
def definitionAt? (f : SchemaFile) (kind : DefinitionKind) (index : Nat) : Option Definition :=
  match kind with
  | .message => f.messages[index]?.map .message
  | .enumeration => f.enums[index]?.map .enumeration

/-- The definition at an address, if this file owns it. -/
def get? (f : SchemaFile) (id : DefinitionId) : Option Definition :=
  if id.file = f.id then f.definitionAt? id.kind id.index else none

/-- The definition named `name`. -/
def definition? (f : SchemaFile) (name : String) : Option Definition :=
  (f.definitionId? name).bind f.get?

/-! ## Registration -/

/-- A call on a schema file. What it has changed stays changed if it fails. -/
abbrev Registration := ExceptT RegistrationError (StateM SchemaFile)

/-- The package for a definition that is to be registered as `name`. A name that is taken is
reported before a package that is missing. -/
def packageFor (f : SchemaFile) (name : String) : Except RegistrationError String :=
  if (f.definitionId? name).isSome then .error (.duplicate f.file name)
  else
    match f.package? with
    | some package => .ok package
    | none => .error (.missingPackage f.file name)

/-- Registers a message. References of its fields that name no package get the file's. -/
def addMessage (m : Message) : Registration DefinitionId := do
  let f ← get
  let package ← f.packageFor m.name
  let fields := m.fields.map fun field => { field with type := field.type.withPackage package }
  let id : DefinitionId := ⟨f.id, .message, f.messages.length⟩
  modify fun f => { f with definitions := f.definitions.insert m.name id }
  modify fun f => { f with messages := f.messages ++ [{ m with owner := f.id, fields }] }
  return id

/-- Registers an enumeration. -/
def addEnumeration (e : Enumeration) : Registration DefinitionId := do
  let f ← get
  let _ ← f.packageFor e.name
  let id : DefinitionId := ⟨f.id, .enumeration, f.enums.length⟩
  modify fun f => { f with definitions := f.definitions.insert e.name id }
  modify fun f => { f with enums := f.enums ++ [{ e with owner := f.id }] }
  return id

/-- Registers a definition of either kind. -/
def register : Definition → Registration DefinitionId
  | .message m => addMessage m
  | .enumeration e => addEnumeration e

end SchemaFile

/-- Something that a file is asked to take in. -/
inductive Addition where
  | header (h : Header)
  | definition (d : Definition)

/-- Takes in a header or a definition, and tells the address of a definition. -/
def SchemaFile.take : Addition → Registration (Option DefinitionId)
  | .header h => do
    modify (·.addHeader h)
    return none
  | .definition d => some <$> register d

end SchemaGen
