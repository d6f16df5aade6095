import SchemaGen.Catalog
import SchemaGen.Settings.File
import SchemaGen.Target

/-!
# Sessions

A session generates code for roots, one run after the other. A root is a schema file, or a directory
that stands for the schema files below it. Each file is handled once in a session, behind the files
that it depends on. The target is told when a run is over, also when the run failed.
-/

namespace SchemaGen

/-- What a session has done so far. -/
structure Stats where
  files : Nat
  messages : Nat
  enums : Nat
  skipped : Nat
deriving DecidableEq, Repr

namespace Stats

/-- Nothing done. -/
def zero : Stats := ⟨0, 0, 0, 0⟩

/-- Counts an event that the target has taken in. -/
def count (s : Stats) : Event → Stats
  | .endDefinition (.message _) => { s with messages := s.messages + 1 }
  | .endDefinition (.enumeration _) => { s with enums := s.enums + 1 }
  | .endFile => { s with files := s.files + 1 }
  | _ => s

/-- Counts a file that was left out. -/
def skip (s : Stats) : Stats :=
  { s with skipped := s.skipped + 1 }

end Stats

/-- What stays the same in a session. -/
structure Plan (σ : Type) where
  target : Target σ
  skip : SkipList
  /-- The extension of schema files in directories. -/
  schemaExt : String

/-- The state of a session. -/
structure Session (σ : Type) where
  catalog : Catalog
  workspace : Workspace σ
  /-- The absolute paths of the files that were handled. -/
  handled : List Path
  stats : Stats

/-- A part of a run. What it changed stays when it fails. -/
abbrev Run (σ : Type) := ExceptT RunError (StateM (Session σ))

namespace Session

variable {σ : Type}

/-- Starts a session on a schema root: the root has to be there, then the output root is made, and
the skip patterns are checked last. `extension` is the target's own, and `notes` are what it starts
with. -/
def start (settings : Settings) (schemaRoot : Path) (target : Target σ) (extension : String)
    (notes : σ) : ExceptT RunError (StateM FileSystem) (Plan σ × Session σ) := do
  let catalog ← (Catalog.ofRoot (← get) schemaRoot).mapError RunError.load
  let output ← ExceptT.adapt RunError.settings (settings.output extension)
  let skip ← settings.skipList.mapError RunError.settings
  return (⟨target, skip, settings.schemaExt⟩, ⟨catalog, ⟨← get, output, notes⟩, [], .zero⟩)

end Session

namespace Run

variable {σ : Type}

/-- Lets the target work. -/
def onTarget {α : Type} (step : Emit σ α) : Run σ α := do
  let s ← get
  let (result, workspace) := step.run s.workspace
  set { s with workspace }
  match result with
  | .ok a => return a
  | .error e => throw e

/-- Tells the target about an event and counts it. -/
def tell (plan : Plan σ) (f : SchemaFile) (event : Event) : Run σ Unit := do
  onTarget (plan.target.handle (← get).catalog.graph f event)
  modify fun s => { s with stats := s.stats.count event }

/-- Notes that a file was handled. -/
def markHandled (f : SchemaFile) : Run σ Unit :=
  modify fun s => { s with handled := s.handled ++ [f.path] }

/-- Counts a file that is left out. -/
def leaveOut : Run σ Unit :=
  modify fun s => { s with stats := s.stats.skip }

/-- Generates code for one file, unless it was handled before or the target refuses it. -/
def file (plan : Plan σ) (f : SchemaFile) : Run σ Unit := do
  if (← get).handled.contains f.path then return
  if plan.target.refuses f then
    markHandled f
    leaveOut
  else
    (Event.ofFile f).forM (tell plan f)
    markHandled f

/-- The name of a root file that skip patterns are matched with: its path from the schema root, also
if only the place it leads to lies below the root. -/
def skipName (fs : FileSystem) (root path : Path) : String :=
  let resolved := match fs.canonicalize path with
    | .ok l => root.below? l.path
    | .error _ => none
  (((root.below? path).or resolved).getD path).slashed

/-- Loads a file. -/
def load (path : Path) : Run σ FileId := do
  let s ← get
  let (result, catalog) := (Catalog.load s.workspace.files path).run s.catalog
  set { s with catalog }
  match result with
  | .ok id => return id
  | .error e => throw (.load e)

/-- Generates code for a root file and all that it depends on. A file that cannot be read is left
out. -/
def rootFile (plan : Plan σ) (path : Path) : Run σ Unit := do
  let s ← get
  if plan.skip.skips (skipName s.workspace.files s.catalog.root path) then leaveOut
  else
    let loaded ← tryCatch (some <$> load path) fun e =>
      match e with
      | .load (.unreadable ..) => return none
      | e => throw e
    match loaded with
    | none => leaveOut
    | some id =>
      let g := (← get).catalog.graph
      let dependencies := ((g.file? id).map (·.dependencies)).getD []
      ((dependencies ++ [id]).filterMap g.file?).forM (file plan)

/-- Generates code for an entry of the directory `dir`; `descend` is for entries that are directories
themselves. Names with a leading dot are passed over, and links are not followed. -/
def entry (plan : Plan σ) (descend : Path → Run σ Unit) (dir : Path) (e : String × Node) :
    Run σ Unit :=
  if e.1.toList.head? = some '.' then return
  else
    match e.2 with
    | .directory .. => descend (dir / e.1)
    | .file .. =>
      if (dir / e.1).extension? = some plan.schemaExt then rootFile plan (dir / e.1) else return
    | .link _ => return

/-- Generates code for the schema files below a directory, down to `depth` levels. A directory is
listed when it is entered. -/
def directory (plan : Plan σ) : (depth : Nat) → Path → Run σ Unit
  | 0, _ => return
  | depth + 1, dir => do
    ((← get).workspace.files.list dir).forM (entry plan (directory plan depth) dir)

/-- Generates code for a root. Generated files can make a directory deeper while it is walked, but
each level makes paths longer, so there are no more levels than a path has bytes. -/
def root (plan : Plan σ) (path : Path) : Run σ Unit := do
  if (← get).workspace.files.isDirectory path then directory plan FileSystem.maxPathSize path
  else rootFile plan path

end Run

/-- Runs a session over roots, in order, and gives what it has done so far. If both the run and its
end fail, the run's error counts. -/
def Session.run {σ : Type} (plan : Plan σ) (roots : List Path) (s : Session σ) :
    Except RunError Stats × Session σ :=
  let (result, s) := (roots.forM (Run.root plan)).run s
  let (finished, s) := (Run.onTarget plan.target.finish).run s
  match result, finished with
  | .error e, _ => (.error e, s)
  | .ok _, .error e => (.error e, s)
  | .ok _, .ok _ => (.ok s.stats, s)

end SchemaGen
