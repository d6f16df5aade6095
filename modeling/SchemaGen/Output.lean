import SchemaGen.Error
import SchemaGen.FileSystem.Change

/-!
# Output

Generated files are written one after the other through one handle: opening a file closes the one
before it. The handle remembers every file that it opened, in order. A file that comes from a schema
file starts with a line that says so.

What is written waits in a buffer until there is no room for it, or until the file is closed.
-/

namespace SchemaGen

/-- A file for output: its path, and the place that the path leads to. -/
structure OutputFile where
  path : Path
  location : Location
deriving DecidableEq, Repr

/-- A file that is open for writing, and the text that waits in its buffer. -/
structure OpenFile extends OutputFile where
  pending : String
deriving DecidableEq, Repr

/-- The handle that generated files are written through. -/
structure Output where
  root : Path
  /-- The extension of generated files with its dot. -/
  extension : String
  /-- The name that generated files are marked with. -/
  tool : String
  /-- The number of bytes that a buffer has room for. -/
  capacity : Nat
  current : Option OpenFile
  /-- All files opened so far, in order. -/
  written : List Path
deriving DecidableEq, Repr

namespace Output

/-- A handle that has opened nothing. -/
def new (root : Path) (extension tool : String) : Output :=
  ⟨root, extension, tool, 8192, none, []⟩

/-- Whether a file is open. -/
def isOpen (o : Output) : Bool :=
  o.current.isSome

/-- The path of the open file. -/
def currentPath? (o : Output) : Option Path :=
  o.current.map (·.path)

/-- The file for the definition `name` of a package. -/
def definitionPath (o : Output) (package name : String) : Path :=
  o.root.join (Path.ofPackage package) / (name ++ o.extension)

/-- The first line of a file that is generated from `f`. -/
def marker (o : Output) (f : SchemaFile) : String :=
  s!"// generated from {f.file.slashed} by {o.tool}, NEVER CHANGE!!"

/-- What goes to the file, and what waits in the buffer, when `text` is written behind `pending`. A
buffer without room for the text is emptied before, and a text that would fill it goes past it. -/
def buffer (capacity : Nat) (pending text : String) : String × String :=
  let (out, pending) :=
    if capacity - pending.utf8ByteSize < text.utf8ByteSize then (pending, "") else ("", pending)
  if capacity ≤ text.utf8ByteSize then (out ++ text, pending) else (out, pending ++ text)

end Output

/-- The things that generating code changes: files, the output handle, and what the target notes
down for itself. -/
structure Workspace (σ : Type) where
  files : FileSystem
  output : Output
  notes : σ

namespace Workspace

variable {σ : Type}

/-- The files once all that waits in the buffer has been written. -/
def settled (w : Workspace σ) : FileSystem :=
  match w.output.current with
  | none => w.files
  | some file => w.files.append file.location file.pending

/-- The workspace with `text` written to the open file by way of its buffer. -/
def push (w : Workspace σ) (text : String) : Workspace σ :=
  match w.output.current with
  | none => w
  | some file =>
    let (out, pending) := Output.buffer w.output.capacity file.pending text
    { w with
      files := w.files.append file.location out
      output := { w.output with current := some { file with pending } } }

end Workspace

/-- A step of generating code. What it changed stays when it fails. -/
abbrev Emit (σ : Type) := ExceptT RunError (StateM (Workspace σ))

namespace Emit

variable {σ : Type}

/-- Makes changes to the files on behalf of `path`. -/
def onDisk {α : Type} (path : Path) (change : Disk α) : Emit σ α := do
  let w ← get
  let (result, files) := change.run w.files
  set { w with files }
  match result with
  | .ok a => return a
  | .error cause => throw (.file path cause)

/-- Empties the buffer and closes the open file, if there is one. -/
def close : Emit σ Unit :=
  modify fun w => { w with files := w.settled, output := { w.output with current := none } }

/-- Lets the handle go out of use, which closes its file. -/
def drop : Emit σ Unit :=
  close

/-- Writes a line to the open file. -/
def line (text : String) : Emit σ Unit := do
  let w ← get
  match w.output.current with
  | none => throw .noOutput
  | some _ => set ((w.push text).push "\n")

/-- Writes lines to the open file. -/
def lines (texts : List String) : Emit σ Unit :=
  texts.forM line

/-- Opens the file `path` with all directories above it, and marks it if it comes from a schema
file. -/
def prepare (path : Path) (source : Option SchemaFile) : Emit σ Unit := do
  close
  if let some parent := path.parent? then
    onDisk path (Disk.makeDirectories parent)
  let location ← onDisk path (Disk.openFile path)
  modify fun w =>
    { w with output := { w.output with
        current := some { path, location, pending := "" }
        written := w.output.written ++ [path] } }
  if let some f := source then
    lines [(← get).output.marker f, ""]

end Emit

end SchemaGen
