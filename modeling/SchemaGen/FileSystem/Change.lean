import SchemaGen.FileSystem.Resolve

/-!
# Changes to a file system

Making directories, opening files for writing, and adding to them. A change that fails may have made
some directories before; each single step either succeeds or changes nothing.
-/

namespace SchemaGen

/-- A computation that changes a file system and may fail. What it changed stays when it fails. -/
abbrev Disk := ExceptT FileError (StateM FileSystem)

namespace Path

/-- The paths above a path, nearest first, at most `n` of them. -/
def aboveWithin : (n : Nat) → Path → List Path
  | 0, _ => []
  | n + 1, p =>
    match p.parent? with
    | none => []
    | some parent => parent :: aboveWithin n parent

/-- The paths above a path, nearest first. The path above a single name is the empty path. -/
def above (p : Path) : List Path :=
  aboveWithin p.components.length p

end Path

namespace Disk

/-- Puts `n` into a directory, under a name that nothing there has. -/
def add (directory : Location) (name : String) (n : Node) : Disk Unit := do
  let fs ← get
  unless fs.isWritable directory do throw .notPermitted
  set (fs.put (directory ++ [name]) n)

/-- Makes the directory `p`; what is above it must be there. Something that has the name already is
in the way, even a link that leads nowhere. -/
def makeDirectory (p : Path) : Disk Unit := do
  let fs ← get
  match fs.locate .name p p.pieces with
  | .ok (.found _ _) => throw .alreadyThere
  | .ok (.vacant directory name) => add directory name .emptyDirectory
  | .error e => throw e

/-- Whether a path leads to a directory now. -/
def isDirectory (p : Path) : Disk Bool :=
  return (← get).isDirectory p

/-- Makes the directory `p`, if it is not there already. -/
def ensure (p : Path) : Disk Unit :=
  tryCatch (makeDirectory p) fun e => do
    unless ← isDirectory p do throw e

/-- Makes `p` if the paths `above` it, nearest first, can be made where they are missing. -/
def makeWithParents (p : Path) : (above : List Path) → Disk Unit
  | [] => ensure p
  | parent :: others =>
    tryCatch (makeDirectory p) fun e => do
      if e = .notFound then
        if parent.text ≠ "" then
          makeWithParents parent others
        ensure p
      else unless ← isDirectory p do throw e

/-- Makes `p` and all that is missing above it. A directory that is there already is fine. -/
def makeDirectories (p : Path) : Disk Unit :=
  unless p.text.isEmpty do
    makeWithParents p p.above

/-- Empties the file at `p`, or makes it, and tells where it lies. -/
def openFile (p : Path) : Disk Location := do
  let fs ← get
  match fs.locate .write p p.steps with
  | .ok (.found _ (.directory ..)) => throw .isDirectory
  | .ok (.found location (.file access _)) =>
    unless access = .full do throw .notPermitted
    set (fs.put location (.file .full .empty))
    return location
  | .ok (.found _ (.link _)) => throw .tooManyLinks
  | .ok (.vacant directory name) =>
    add directory name (.file .full .empty)
    return directory ++ [name]
  | .error e => throw e

end Disk

namespace FileSystem

/-- The file system with `text` behind the contents of the file at `l`, which has been opened. -/
def append (fs : FileSystem) (l : Location) (text : String) : FileSystem :=
  match fs.node? l with
  | some (.file access contents) => fs.put l (.file access (contents ++ text.toUTF8))
  | _ => fs

end FileSystem

end SchemaGen
