import SchemaGen.Schema.File
import SchemaGen.Target.RustName

/-!
# Modules of Rust sources

Each schema file becomes one module. It lies inside the modules of its package, and its source file
lies in the directories of the same names.
-/

namespace SchemaGen.Rust

/-- The modules of a file's package, outermost first. -/
def packageModules (f : SchemaFile) : List String :=
  (Text.words '.' (f.package?.getD "")).map moduleName

/-- The module of a file. -/
def fileModule (f : SchemaFile) : String :=
  moduleName (f.file.stem?.getD "")

/-- The path of a file's module from the crate root. -/
def modulePath (f : SchemaFile) : String :=
  "::".intercalate ("crate" :: packageModules f ++ [fileModule f])

/-- The directory of a file's source below the output root. -/
def directory (root : Path) (f : SchemaFile) : Path :=
  (packageModules f).foldl (· / ·) root

/-- The source file of a schema file. -/
def sourcePath (root : Path) (extension : String) (f : SchemaFile) : Path :=
  directory root f / (fileModule f ++ extension)

end SchemaGen.Rust
