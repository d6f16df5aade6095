import SchemaGen.CommandLine

/-!
# The program

The program works on a copy of the files that its command line names: it brings them in, runs the
command line on the copy, and writes back the files and directories that are new or changed.
-/

namespace SchemaGen.Main

/-! ## Bringing files in -/

/-- A copy of some files, and the directories that are brought in with all that they hold. -/
structure Snapshot where
  files : FileSystem
  whole : List Location

/-- A computation that brings files in. -/
abbrev Copying := StateT Snapshot IO

/-- What lies at a place of the disk. A link is taken to lead straight to where it ends. -/
def look (l : Location) : IO (Option Node) := do
  let place := (← IO.currentDir) / l.path.text
  try
    match (← place.symlinkMetadata).type with
    | .dir => return some .emptyDirectory
    | .symlink =>
      let target ← try IO.FS.realPath place catch _ => pure (place / "missing")
      return some (.link ⟨target.toString⟩)
    | _ =>
      let contents? ← try some <$> IO.FS.readBinFile place catch _ => pure none
      match contents? with
      | none => return some (.file .none .empty)
      | some contents =>
        -- Opening a file to write behind its contents changes nothing.
        let access ← try (fun _ => .full) <$> IO.FS.Handle.mk place .append
          catch _ => pure .readOnly
        return some (.file access contents)
  catch _ => return none

/-- Puts a node into the copy. -/
def keep (l : Location) (n : Node) : Copying Unit :=
  modify fun s => { s with files := s.files.put l n }

mutual

/-- Brings in what `steps` lead through from `here`, and all that lies where they end. -/
partial def follow (here : Location) : List String → Copying Unit
  | [] => copyAll here
  | step :: steps => do
    if step = "" ∨ step = "." then follow here steps
    else if step = ".." then follow here.dropLast steps
    else
      let place := here ++ [step]
      match ← look place with
      | none => return
      | some (.link target) =>
        keep place (.link target)
        follow [] (target.steps ++ steps)
      | some node =>
        if ((← get).files.node? place).isNone then keep place node
        follow place steps

/-- Brings in all that lies in the directory at `l`. -/
partial def copyAll (l : Location) : Copying Unit := do
  if (← get).whole.contains l then return
  modify fun s => { s with whole := l :: s.whole }
  match (← get).files.node? l with
  | some (.directory ..) =>
    let place := (← IO.currentDir) / l.path.text
    let listed? ← try some <$> place.readDir catch _ => pure none
    match listed? with
    | none => keep l (.directory .none [])
    | some listed => listed.forM fun entry => follow l [entry.fileName]
  | _ => return

end

/-- Brings in what a path leads to. -/
def bring (p : Path) : Copying Unit := do
  let here := (← get).files.workingDir
  follow (if p.isAbsolute then [] else here) p.steps

/-- The paths that the files brought in import, as seen from the schema root. -/
def imports (fs : FileSystem) (root : Path) : List Path :=
  fs.places.flatMap fun (_, n) =>
    match n with
    | .file _ contents =>
      match Catalog.document "" contents with
      | .ok d => d.imports.map (root / ·)
      | .error _ => []
    | _ => []

/-- Brings in all that is imported from a schema root, until nothing is left to bring in. -/
partial def bringImports (root : Path) : Copying Unit := do
  let before := (← get).files.places.length
  (imports (← get).files root).forM bring
  if before < (← get).files.places.length then bringImports root

/-- Brings in what a command needs. -/
def bringFor : Command → Copying Unit
  | .generate g => do
    g.config.forM bring
    let outDir := match g.settings (← get).files with
      | .ok s => s.outDir
      | .error _ => Settings.default.outDir
    bring outDir
    bring g.schemaRoot
    g.roots.forM fun root => bring (g.schemaRoot.join root)
    bringImports g.schemaRoot
  | .dump schemaRoot file => do
    bring schemaRoot
    bring (schemaRoot.join file)
    bringImports schemaRoot

/-! ## Writing back -/

/-- Writes what is new or changed to the disk, directories before what lies in them. -/
def writeBack (before after : FileSystem) : IO Unit := do
  for (l, n) in after.places do
    match n, before.node? l with
    | .directory .., none => IO.FS.createDirAll l.path.text
    | .file _ contents, some (.file _ old) =>
      if contents.data ≠ old.data then IO.FS.writeBinFile l.path.text contents
    | .file _ contents, _ => IO.FS.writeBinFile l.path.text contents
    | _, _ => pure ()

/-- A copy with nothing but the directories down to `here`, where relative paths start. -/
def startAt (here : Location) : Snapshot :=
  let above := (List.range (here.length + 1)).map here.take
  let files := above.foldl (fun fs l => fs.put l .emptyDirectory) FileSystem.empty
  ⟨{ files with workingDir := here }, []⟩

/-- Runs a command line on the disk and gives the exit code. -/
def runOnDisk (words : List String) : IO UInt32 := do
  let here : Path := ⟨(← IO.FS.realPath (← IO.currentDir)).toString⟩
  let copying := match CommandLine.read words with
    | .ok command => bringFor command
    | .error _ => pure ()
  let (_, snapshot) ← copying.run (startAt here.pieces)
  let (outcome, files) := CommandLine.run words snapshot.files
  writeBack snapshot.files files
  match outcome with
  | .printed text => IO.print text
  | .failed e => IO.eprintln s!"Error: {e.message}"
  | .refused e => IO.eprintln e.message
  return outcome.exitCode.toUInt32

end SchemaGen.Main

/-- Runs the program. -/
def main (args : List String) : IO UInt32 :=
  SchemaGen.Main.runOnDisk args
