import SchemaGen.Output
import SchemaGen.Proofs.DiskChanges
import SchemaGen.Proofs.Steps

/-!
# The buffer of the output handle

What is written to the open file waits in a buffer. When it goes to the file depends on the room in
the buffer and on the lengths of the texts that come, but what the file will hold does not:
what has gone to the file and what waits are together all that was written.

A handle whose buffer has no room writes through: every text goes to the file at once. Any handle can
be compared with it, when all that waits is taken as written.

Results:
1. `Workspace.push_pushed`, `Workspace.Pushed.settled`: what writing a text does.
2. `Emit.lines_run`, `Emit.prepare_run`: what writing lines and preparing a file do.
3. `Emit.line_through`, `Emit.close_through`, `Emit.prepare_through`: a handle with a buffer does the
   same as one that writes through.
-/

namespace SchemaGen

variable {σ : Type}

/-! ## Definitions -/

namespace Output

/-- The open file. -/
def file? (o : Output) : Option OutputFile :=
  o.current.map (·.toOutputFile)

/-- The lines that a file begins with. -/
def head (o : Output) : Option SchemaFile → List String
  | some f => [o.marker f, ""]
  | none => []

/-- Lines as one text, each with a newline behind it. -/
def text (lines : List String) : String :=
  String.join (lines.map (· ++ "\n"))

/-- The bytes of lines, each with a newline behind it. -/
def bytes (lines : List String) : ByteArray :=
  (text lines).toUTF8

end Output

namespace Workspace

/-- The workspace when lines have been written to the open file. -/
def type (w : Workspace σ) (lines : List String) : Workspace σ :=
  lines.foldl (fun w text => (w.push text).push "\n") w

/-- The workspace when its file has been closed. -/
def closed (w : Workspace σ) : Workspace σ :=
  { w with files := w.settled, output := { w.output with current := none } }

/-- The workspace when a file has been opened, which has `path` and lies at `l`. -/
def opened (w : Workspace σ) (files : FileSystem) (path : Path) (l : Location) : Workspace σ :=
  { w with
    files
    output := { w.output with
      current := some ⟨⟨path, l⟩, ""⟩
      written := w.output.written ++ [path] } }

/-- `now` is `w` when `text` has been written to its open file. Some of the text that waited or came
has gone to the file, and the rest waits. -/
def Pushed (w : Workspace σ) (file : OpenFile) (text : String) (now : Workspace σ) : Prop :=
  ∃ out pending, out ++ pending = file.pending ++ text ∧
    now = { w with
      files := w.files.append file.location out
      output := { w.output with current := some { file with pending } } }

/-- The workspace without its buffer: all that waits has been written, and the handle writes through
from now on. -/
def through (w : Workspace σ) : Workspace σ :=
  { w with
    files := w.settled
    output := { w.output with
      capacity := 0
      current := w.output.current.map ({ · with pending := "" }) } }

end Workspace

/-- Makes what is missing above a file, and opens it. -/
def Disk.opening (path : Path) : Disk Location := do
  if let some parent := path.parent? then
    makeDirectories parent
  openFile path

/-! ## 1. Writing a text -/

namespace Output

theorem text_append (lines more : List String) : text (lines ++ more) = text lines ++ text more := by
  simp [text]

theorem text_cons (line : String) (lines : List String) :
    text (line :: lines) = line ++ "\n" ++ text lines := by
  simp [text]

theorem bytes_append (lines more : List String) :
    bytes (lines ++ more) = bytes lines ++ bytes more := by
  simp [bytes, text]

theorem bytes_singleton (line : String) : bytes [line] = (line ++ "\n").toUTF8 := by
  simp [bytes, text]

/-- Nothing is lost in a buffer, and nothing comes out of turn. -/
theorem buffer_append (capacity : Nat) (pending text : String) :
    (buffer capacity pending text).1 ++ (buffer capacity pending text).2 = pending ++ text := by
  unfold buffer
  by_cases hroom : capacity - pending.utf8ByteSize < text.utf8ByteSize
  · by_cases hlong : capacity ≤ text.utf8ByteSize <;> simp [hroom, hlong]
  · by_cases hlong : capacity ≤ text.utf8ByteSize
    · -- A text as long as the buffer has room behind nothing only.
      have hempty : pending = "" ∨ text = "" := by
        rw [← String.utf8ByteSize_eq_zero_iff, ← String.utf8ByteSize_eq_zero_iff]
        omega
      rcases hempty with rfl | rfl <;> simp [hlong]
    · simp [hroom, hlong]

theorem buffer_zero (text : String) : buffer 0 "" text = (text, "") := by
  by_cases hempty : text = "" <;> simp [buffer, hempty]

end Output

namespace Workspace

variable {w now later : Workspace σ} {file : OpenFile} {text : String}

theorem settled_of_closed (h : w.output.current = none) : w.settled = w.files := by
  rw [settled, h]

theorem settled_of_open (h : w.output.current = some file) :
    w.settled = w.files.append file.location file.pending := by
  rw [settled, h]

theorem settled_opened (w : Workspace σ) (files : FileSystem) (path : Path) (l : Location) :
    (w.opened files path l).settled = files :=
  FileSystem.append_empty files l

theorem closed_of_closed (h : w.output.current = none) : w.closed = w := by
  rw [closed, settled_of_closed h, ← h]

theorem push_of_closed (h : w.output.current = none) : w.push text = w := by
  rw [push, h]

theorem push_pushed (h : w.output.current = some file) (text : String) :
    w.Pushed file text (w.push text) := by
  refine ⟨_, _, Output.buffer_append w.output.capacity file.pending text, ?_⟩
  rw [push, h]

namespace Pushed

theorem refl (h : w.output.current = some file) : w.Pushed file "" w := by
  refine ⟨"", file.pending, by simp, ?_⟩
  rw [FileSystem.append_empty, ← h]

/-- One text behind another. -/
theorem trans {more : String} (h : w.Pushed file text now)
    (h' : ∀ pending, now.output.current = some { file with pending } →
      now.Pushed { file with pending } more later) : w.Pushed file (text ++ more) later := by
  obtain ⟨out, pending, hparts, rfl⟩ := h
  obtain ⟨out', pending', hparts', rfl⟩ := h' pending rfl
  refine ⟨out ++ out', pending', ?_, ?_⟩
  · rw [String.append_assoc, hparts', ← String.append_assoc, hparts, String.append_assoc]
  · rw [← FileSystem.append_append]

theorem file? (h : w.Pushed file text now) : now.output.file? = some file.toOutputFile := by
  obtain ⟨out, pending, -, rfl⟩ := h
  rfl

theorem written (h : w.Pushed file text now) : now.output.written = w.output.written := by
  obtain ⟨out, pending, -, rfl⟩ := h
  rfl

theorem exists_open (h : w.Pushed file text now) :
    ∃ file' : OpenFile, file'.toOutputFile = file.toOutputFile ∧ now.output.current = some file' := by
  obtain ⟨out, pending, -, rfl⟩ := h
  exact ⟨{ file with pending }, rfl, rfl⟩

/-- When all is written, the file has the text more. -/
theorem settled (h : w.Pushed file text now) (hopen : w.output.current = some file) :
    now.settled = w.settled.append file.location text := by
  obtain ⟨out, pending, hparts, rfl⟩ := h
  rw [settled_of_open rfl, settled_of_open hopen, FileSystem.append_append,
    FileSystem.append_append, hparts]

end Pushed

theorem type_pushed (h : w.output.current = some file) (lines : List String) :
    w.Pushed file (Output.text lines) (w.type lines) := by
  induction lines generalizing w file with
  | nil => exact .refl h
  | cons line rest ih =>
    rw [Output.text_cons]
    refine ((push_pushed h line).trans fun pending hopen => push_pushed hopen "\n").trans ?_
    exact fun pending hopen => ih hopen

end Workspace

/-! ## 2. Steps -/

namespace Disk

theorem opening_run (path : Path) (fs : FileSystem) :
    (opening path).run fs =
      match path.parent? with
      | none => (openFile path).run fs
      | some parent =>
        match (makeDirectories parent).run fs with
        | (.ok _, made) => (openFile path).run made
        | (.error e, made) => (.error e, made) := by
  unfold opening
  cases path.parent? with
  | none => rfl
  | some parent =>
    simp only [run_bind]
    rcases (makeDirectories parent).run fs with ⟨(e | _), made⟩ <;> rfl

theorem opening_of_ok {path : Path} {fs now : FileSystem} {l : Location}
    (h : (opening path).run fs = (.ok l, now)) :
    fs.Changes now [l] ∧ now.shape? l = some (.file .full .empty) ∧
      (fs.HasDirectory [] → now.Reaches .write path path.steps l) := by
  rw [opening_run] at h
  split at h
  · exact openFile_of_ok h
  · next parent _ =>
    have hmade := makeDirectories_changes parent fs
    split at h
    · next made hmake =>
      rw [hmake] at hmade
      obtain ⟨hchanges, hempty, hreaches⟩ := openFile_of_ok h
      exact ⟨hmade.trans hchanges, hempty, fun hroot => hreaches (hroot.grows (hmade.grows hroot))⟩
    · cases h

theorem opening_of_error {path : Path} {fs now : FileSystem} {e : FileError}
    (h : (opening path).run fs = (.error e, now)) : fs.Changes now [] := by
  rw [opening_run] at h
  split at h
  · rw [openFile_of_error h]
    exact .refl fs []
  · next parent _ =>
    have hmade := makeDirectories_changes parent fs
    split at h
    · next made hmake =>
      rw [hmake] at hmade
      rw [openFile_of_error h]
      exact hmade
    · next made hmake =>
      rw [hmake] at hmade
      rw [← (Prod.mk.inj h).2]
      exact hmade

end Disk

/-- A file that was opened and has got a text since holds it once all is written. -/
theorem Workspace.Pushed.of_opening {w later : Workspace σ} {files : FileSystem} {path : Path}
    {l : Location} {text : String} (hopening : (Disk.opening path).run w.settled = (.ok l, files))
    (h : (w.opened files path l).Pushed ⟨⟨path, l⟩, ""⟩ text later) :
    w.settled.Changes later.settled [l] ∧ later.settled.shape? l = some (.file .full text.toUTF8) ∧
      (w.settled.HasDirectory [] → later.settled.Reaches .reach path path.steps l) := by
  obtain ⟨hopened, hempty, hreaches⟩ := Disk.opening_of_ok hopening
  have hmore := files.append_changes l text
  have hchanges := hopened.trans hmore
  have hshape := FileSystem.shape?_append hempty text
  rw [ByteArray.empty_append] at hshape
  rw [h.settled rfl, settled_opened]
  refine ⟨⟨hchanges.grows, fun k hk => hchanges.contents k (by simpa using hk), hchanges.tidy⟩,
    hshape, fun hroot => ?_⟩
  exact ((hreaches hroot).grows (hmore.grows (hroot.grows (hopened.grows hroot)))).reach_of_write

namespace Emit

variable {α : Type} {w : Workspace σ}

theorem onDisk_run (path : Path) (change : Disk α) (w : Workspace σ) :
    (onDisk path change : Emit σ α).run w =
      ((change.run w.files).1.mapError (.file path),
        { w with files := (change.run w.files).2 }) := by
  simp only [onDisk, run_bind, run_get]
  rcases change.run w.files with ⟨(cause | a), files⟩ <;> rfl

theorem close_run (w : Workspace σ) : (close : Emit σ Unit).run w = (.ok (), w.closed) :=
  rfl

theorem line_run (text : String) (w : Workspace σ) :
    (line text : Emit σ Unit).run w =
      match w.output.current with
      | none => (.error .noOutput, w)
      | some _ => (.ok (), w.type [text]) := by
  simp only [line, run_bind, run_get]
  cases w.output.current <;> rfl

theorem lines_run {file : OpenFile} (h : w.output.current = some file) (texts : List String) :
    (lines texts : Emit σ Unit).run w = (.ok (), w.type texts) := by
  induction texts generalizing w file with
  | nil => rfl
  | cons text rest ih =>
    rw [lines, forM_run_cons, line_run, h]
    obtain ⟨out, pending, -, hnow⟩ := Workspace.type_pushed h [text]
    exact ih (w := w.type [text]) (congrArg (·.output.current) hnow)

theorem head_run {file : OpenFile} (h : w.output.current = some file)
    (source : Option SchemaFile) :
    (do if let some f := source then lines [(← get).output.marker f, ""] : Emit σ Unit).run w =
      (.ok (), w.type (w.output.head source)) := by
  cases source with
  | none => rfl
  | some f =>
    show (get >>= fun w => lines [w.output.marker f, ""] : Emit σ Unit).run w = _
    rw [run_bind, run_get]
    exact lines_run h _

/-- Preparing a file closes the one before it. If it can be opened, the new file is open and has its
first lines; if not, no file is. -/
theorem prepare_run (path : Path) (source : Option SchemaFile) (w : Workspace σ) :
    (prepare path source).run w =
      match (Disk.opening path).run w.settled with
      | (.ok l, files) => (.ok (), (w.opened files path l).type (w.output.head source))
      | (.error cause, files) => (.error (.file path cause), { w.closed with files }) := by
  unfold prepare
  rw [run_bind, Emit.close, run_modify, Disk.opening_run]
  cases path.parent? with
  | none =>
    simp only [run_bind, onDisk_run, run_modify]
    rcases (Disk.openFile path).run w.settled with ⟨(cause | l), files⟩
    · rfl
    · exact head_run rfl source
  | some parent =>
    simp only [run_bind, onDisk_run, run_modify]
    rcases (Disk.makeDirectories parent).run w.settled with ⟨(cause | _), made⟩
    · rfl
    simp only [Except.mapError]
    rcases (Disk.openFile path).run made with ⟨(cause | l), files⟩
    · rfl
    · exact head_run rfl source

/-- A file that is written from beginning to end has all its lines. -/
theorem prepare_lines_close_run (path : Path) (texts : List String) (w : Workspace σ) :
    (do prepare path none; lines texts; close : Emit σ Unit).run w =
      match (Disk.opening path).run w.settled with
      | (.ok l, files) =>
        (.ok (),
          { (w.opened files path l).closed with files := files.append l (Output.text texts) })
      | (.error cause, files) => (.error (.file path cause), { w.closed with files }) := by
  rw [run_bind, prepare_run]
  rcases (Disk.opening path).run w.settled with ⟨(cause | l), files⟩
  · rfl
  have hlines := lines_run (w := w.opened files path l) rfl texts
  show (lines texts >>= fun _ => close : Emit σ Unit).run (w.opened files path l) = _
  have hpushed := Workspace.type_pushed (w := w.opened files path l) rfl texts
  have hsettled := hpushed.settled rfl
  rw [Workspace.settled_opened] at hsettled
  obtain ⟨out, pending, -, hnow⟩ := hpushed
  rw [run_bind, hlines]
  simp only
  rw [close_run, Workspace.closed, hsettled, hnow]
  rfl

end Emit

/-! ## 3. Writing through -/

namespace Workspace

variable {w now : Workspace σ} {file : OpenFile} {text : String}

theorem through_of_closed (h : w.output.current = none) :
    w.through = { w with output := { w.output with capacity := 0 } } := by
  simp only [through, settled_of_closed h, h, Option.map_none]

theorem through_of_open (h : w.output.current = some file) :
    w.through =
      { w with
        files := w.settled
        output := { w.output with
          capacity := 0
          current := some { file with pending := "" } } } := by
  simp only [through, h, Option.map_some]

theorem through_of_empty (file : OpenFile) (h : w.output.current = some file)
    (hempty : file.pending = "") :
    w.through = { w with output := { w.output with capacity := 0 } } := by
  rw [through_of_open h, settled_of_open h, hempty, FileSystem.append_empty, ← hempty, ← h]

/-- A handle that writes through does so at once. -/
theorem push_through (h : w.output.current = some file) (text : String) :
    w.through.push text = { w.through with files := w.settled.append file.location text } := by
  rw [through_of_open h]
  simp only [push, Output.buffer_zero]

theorem Pushed.through (h : w.Pushed file text now) (hopen : w.output.current = some file) :
    now.through = { w.through with files := w.settled.append file.location text } := by
  have hsettled := h.settled hopen
  obtain ⟨out, pending, -, rfl⟩ := h
  rw [through_of_open rfl, through_of_open hopen, hsettled]

theorem through_push (w : Workspace σ) (text : String) :
    (w.push text).through = w.through.push text := by
  cases h : w.output.current with
  | none =>
    have hthrough : w.through.output.current = none := by rw [through_of_closed h, h]
    rw [push_of_closed h, push_of_closed hthrough]
  | some file => rw [push_through h, (push_pushed h text).through h]

/-- What goes along with the addition of each text goes along with the addition of lines. -/
theorem type_comm {τ : Type} {F : Workspace σ → Workspace τ}
    (h : ∀ w text, F (w.push text) = (F w).push text) (w : Workspace σ) (lines : List String) :
    F (w.type lines) = (F w).type lines := by
  induction lines generalizing w with
  | nil => rfl
  | cons line rest ih =>
    refine (ih ((w.push line).push "\n")).trans ?_
    rw [h, h]
    rfl

theorem settled_through (w : Workspace σ) : w.through.settled = w.settled := by
  cases h : w.output.current with
  | none =>
    rw [settled_of_closed h, through_of_closed h]
    exact settled_of_closed h
  | some file =>
    rw [through_of_open h, settled_of_open rfl]
    exact FileSystem.append_empty _ _

end Workspace

namespace Emit

variable (w : Workspace σ)

theorem close_through :
    (close : Emit σ Unit).run w.through = (.ok (), ((close : Emit σ Unit).run w).2.through) := by
  rw [close_run, close_run, Workspace.closed, Workspace.settled_through]
  rfl

theorem line_through (text : String) :
    (line text : Emit σ Unit).run w.through =
      (((line text : Emit σ Unit).run w).1, ((line text : Emit σ Unit).run w).2.through) := by
  rw [line_run, line_run]
  cases h : w.output.current with
  | none =>
    have hthrough : w.through.output.current = none := by rw [Workspace.through_of_closed h, h]
    rw [hthrough]
  | some file =>
    rw [show w.through.output.current = some _ by rw [Workspace.through_of_open h],
      Workspace.type_comm Workspace.through_push]

theorem prepare_through (path : Path) (source : Option SchemaFile) :
    (prepare path source).run w.through =
      (((prepare path source).run w).1, ((prepare path source).run w).2.through) := by
  rw [prepare_run, prepare_run, Workspace.settled_through]
  rcases (Disk.opening path).run w.settled with ⟨(cause | l), files⟩
  · rfl
  · have hopened : (w.opened files path l).through = w.through.opened files path l :=
      Workspace.through_of_empty ⟨⟨path, l⟩, ""⟩ rfl rfl
    simp only
    rw [Workspace.type_comm Workspace.through_push, hopened]
    rfl

end Emit

end SchemaGen
