import SchemaGen.Schema.Dump
import SchemaGen.Session
import SchemaGen.Target.JavaSource
import SchemaGen.Target.RustSource

/-!
# Commands

There are two commands: generate code for some roots, and show a schema file as JSON.
-/

namespace SchemaGen

/-- The languages that code can be generated in. -/
inductive Language where
  | java
  | rust
deriving DecidableEq, Repr

namespace Language

/-- The languages. -/
def all : List Language := [java, rust]

/-- How a language is named on the command line. -/
def name : Language → String
  | java => "java"
  | rust => "rust"

/-- The language named `name`. -/
def ofName? (name : String) : Option Language :=
  all.find? fun language => language.name = name

end Language

/-- What to generate. -/
structure Generate where
  language : Language
  schemaRoot : Path
  /-- The output root, if it is not the settings'. -/
  out : Option Path
  /-- Skip patterns beside those of the settings. -/
  skip : List String
  /-- The settings file. -/
  config : Option Path
  /-- The extension of generated files, if it is not the settings'. -/
  extension : Option String
  roots : List Path
deriving DecidableEq, Repr

/-- A command. -/
inductive Command where
  | generate (g : Generate)
  | dump (schemaRoot file : Path)
deriving DecidableEq, Repr

/-- A computation that works on files and fails like a run. -/
abbrev Action := ExceptT RunError (StateM FileSystem)

namespace Generate

/-- The settings of the run: those of the settings file, with what the command says on top. -/
def settings (g : Generate) (fs : FileSystem) : Except SettingsError Settings := do
  let s ← match g.config with
    | some path => Settings.load fs path
    | none => .ok .default
  return { s with
    outDir := g.out.getD s.outDir
    fileExt := g.extension.or s.fileExt
    skip := s.skip ++ g.skip }

/-- What is printed when a run is over. -/
def summary (stats : Stats) (outDir : Path) : String :=
  s!"Compiled {stats.files} files ({stats.messages} messages, {stats.enums} enums), " ++
    s!"skipped {stats.skipped} → {outDir.text}\n"

/-- Generates code in a language. Relative roots start from the schema root. -/
def runWith {σ : Type} (g : Generate) (settings : Settings) (target : Target σ)
    (extension : String) (notes : σ) : Action String := do
  let (plan, s) ← Session.start settings g.schemaRoot target extension notes
  let (result, s) := s.run plan (g.roots.map s.catalog.root.join)
  set s.workspace.files
  return summary (← result) settings.outDir

/-- Generates code and gives what is printed. -/
def run (g : Generate) : Action String := do
  let settings ← (g.settings (← get)).mapError RunError.settings
  match g.language with
  | .java => g.runWith settings Java.target Java.extension ()
  | .rust => g.runWith settings Rust.target Rust.extension []

end Generate

namespace Command

/-- Loads a schema file and gives its JSON text. -/
def dumpFile (schemaRoot file : Path) : Action String := do
  let fs ← get
  let catalog ← (Catalog.ofRoot fs schemaRoot).mapError RunError.load
  let (result, catalog) := (Catalog.load fs file).run catalog
  let id ← result.mapError RunError.load
  return ((catalog.graph.file? id).map SchemaFile.dump).getD "" ++ "\n"

/-- Carries out a command and gives what is printed. -/
def run : Command → Action String
  | generate g => g.run
  | dump schemaRoot file => dumpFile schemaRoot file

end Command

end SchemaGen
