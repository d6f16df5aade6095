import SchemaGen.Schema.File

/-!
# Graphs of schema files

All files that were loaded, in the order in which they were completed. The number of a file is its
place, and files are never removed, so numbers and addresses stay valid.
-/

namespace SchemaGen

/-- Schema files by number. -/
structure Graph where
  files : List SchemaFile
deriving DecidableEq, Repr

namespace Graph

/-- The graph without files. -/
def empty : Graph := ⟨[]⟩

/-- The number of the next file. -/
def nextId (g : Graph) : FileId :=
  g.files.length

/-- The file with number `id`. -/
def file? (g : Graph) (id : FileId) : Option SchemaFile :=
  g.files[id]?

/-- The graph with one more file, which gets the next number. -/
def insert (g : Graph) (f : SchemaFile) : Graph :=
  ⟨g.files ++ [{ f with id := g.nextId }]⟩

/-- The number of the file at `path`. -/
def find? (g : Graph) (path : Path) : Option FileId :=
  (g.files.find? (·.path.same path)).map (·.id)

/-- The definition at an address. -/
def definition? (g : Graph) (id : DefinitionId) : Option Definition :=
  (g.file? id.file).bind fun f => f.definitionAt? id.kind id.index

/-- The package of the file that owns a definition. -/
def packageOf? (g : Graph) (d : Definition) : Option String :=
  (g.file? d.owner).bind SchemaFile.package?

end Graph

end SchemaGen
