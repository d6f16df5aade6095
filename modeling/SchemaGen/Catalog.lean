import SchemaGen.Catalog.Scope
import SchemaGen.Document.Parser
import SchemaGen.FileSystem.Resolve
import SchemaGen.Text.Utf8

/-!
# Loading schema files

A catalog holds the files loaded so far below a schema root. Loading a file first loads what it
imports, in order, and then adds the file itself, so a file stands behind all that it depends on. A
file that is loaded already is not read again. When loading fails, the files that were added before
stay.

A file is never imported while it is being loaded: that is a cycle. So each import goes on to a file
that is not on the way yet, and loading ends because there are only so many files.
-/

namespace SchemaGen

/-- The schema files loaded so far. -/
structure Catalog where
  /-- The schema root, free of links. -/
  root : Path
  graph : Graph
  /-- The numbers of the loaded files by their absolute paths. -/
  loaded : List (Path × FileId)
  /-- The files that are being loaded, the one begun last in front. -/
  loading : List Location
deriving DecidableEq, Repr

/-- A computation that loads files. What it loaded stays when it fails. -/
abbrev Loading := ExceptT LoadError (StateM Catalog)

namespace FileSystem

/-- How many places there are beside `visited`. -/
def unvisited (fs : FileSystem) (visited : List Location) : Nat :=
  (fs.places.filter fun (l, _) => !visited.contains l).length

theorem unvisited_cons (fs : FileSystem) (visited : List Location) (l : Location) :
    fs.unvisited (l :: visited) =
      ((fs.places.filter fun (m, _) => !visited.contains m).filter
        fun (m, _) => decide (m ≠ l)).length := by
  rw [unvisited, List.filter_filter]
  refine congrArg List.length (List.filter_congr ?_)
  rintro ⟨m, n⟩ -
  simp

theorem unvisited_cons_le (fs : FileSystem) (visited : List Location) (l : Location) :
    fs.unvisited (l :: visited) ≤ fs.unvisited visited := by
  rw [unvisited_cons]
  exact List.length_filter_le _ _

theorem unvisited_lt {fs : FileSystem} {visited : List Location} {l : Location} {n : Node}
    (hmem : (l, n) ∈ fs.places) (hnew : l ∉ visited) :
    fs.unvisited (l :: visited) < fs.unvisited visited := by
  rw [unvisited_cons]
  apply List.length_filter_lt_length_iff_exists.2
  exact ⟨(l, n), by simpa using ⟨hmem, hnew⟩, by simp⟩

end FileSystem

namespace Graph

/-- `ids` with `id` behind them, unless it is among them. -/
def addNew (ids : List FileId) (id : FileId) : List FileId :=
  if ids.contains id then ids else ids ++ [id]

/-- The files in `direct` and all that they depend on, each once and behind its own
dependencies. -/
def closure (g : Graph) (direct : List FileId) : List FileId :=
  (direct.flatMap fun id => ((g.file? id).map (·.dependencies)).getD [] ++ [id]).foldl addNew []

end Graph

namespace Catalog

/-- The catalog of the schema root that a path leads to, with nothing loaded. -/
def ofRoot (fs : FileSystem) (root : Path) : Except LoadError Catalog :=
  match fs.canonicalize root with
  | .ok location => .ok ⟨location.path, .empty, [], []⟩
  | .error cause => .error (.unreadable root cause)

/-- The number of the file at `path`, if it is loaded. -/
def loaded? (c : Catalog) (path : Path) : Option FileId :=
  (c.loaded.find? (·.1.same path)).map (·.2)

/-- A path as seen from the schema root; a path elsewhere stays. -/
def relative (root p : Path) : Path :=
  (root.below? p).getD p

/-- How the file at `l` is named in errors. -/
def nameOf (root : Path) (l : Location) : String :=
  (relative root l.path).slashed

/-- The document in the contents of `file`. -/
def document (file : String) (contents : ByteArray) : Except LoadError Document :=
  match Text.ofBytes contents with
  | .error valid => .error (.notText file (.inBytes (contents.data.toList.take valid)))
  | .ok text => (Document.ofText text).mapError (.invalid file)

/-- The document in the file at `l`. -/
def read (fs : FileSystem) (root : Path) (l : Location) : Except LoadError Document :=
  match fs.readAt l with
  | .error cause => .error (.unreadable l.path cause)
  | .ok contents => document (nameOf root l) contents

/-- The file at `l`, which declares `d` and imports the files `imported` of the graph. -/
def build (root : Path) (g : Graph) (l : Location) (d : Document) (imported : List FileId) :
    Except LoadError SchemaFile :=
  SchemaFile.fill { SchemaFile.empty g.nextId root (relative root l.path) l.path with
    dependencies := g.closure imported } g d

/-- The catalog once loading the file at `l` has begun. -/
def enter (c : Catalog) (l : Location) : Catalog :=
  { c with loading := l :: c.loading }

/-- The catalog once loading the file begun last is over. -/
def leave (c : Catalog) : Catalog :=
  { c with loading := c.loading.tail }

/-- The catalog with one more file, which lies at `l`. -/
def add (c : Catalog) (l : Location) (f : SchemaFile) : Catalog :=
  { c with
    graph := c.graph.insert f
    loaded := (l.path, c.graph.nextId) :: c.loaded }

/-- What is wrong with importing `imported`, if `e` is wrong with the imported file. -/
def importError (file imported : String) : LoadError → LoadError
  | .unreadable .. => .unresolvedImport file imported
  | e => e

/-- The result of loading from `c` on, and the catalog after it. Whatever the result, the files that
are being loaded are the same again. -/
abbrev Outcome (c : Catalog) (α : Type) : Type :=
  { r : Except LoadError α × Catalog // r.2.loading = c.loading }

theorem exists_contents_of_read {fs : FileSystem} {root : Path} {l : Location} {d : Document}
    (h : read fs root l = .ok d) : ∃ contents, fs.readAt l = .ok contents := by
  unfold read at h
  split at h
  · cases h
  · next contents hread => exact ⟨contents, hread⟩

mutual

/-- Loads the file at `l`. -/
def loadAt (fs : FileSystem) (c : Catalog) (l : Location) : Outcome c FileId :=
  match c.loaded? l.path with
  | some id => ⟨(.ok id, c), rfl⟩
  | none =>
    match _hread : read fs c.root l with
    | .error e => ⟨(.error e, c), rfl⟩
    | .ok d =>
      match loadImports fs (c.enter l) (nameOf c.root l) d.imports with
      | ⟨(.error e, after), same⟩ => ⟨(.error e, after.leave), congrArg List.tail same⟩
      | ⟨(.ok imported, after), same⟩ =>
        match build after.root after.graph l d imported with
        | .error e => ⟨(.error e, after.leave), congrArg List.tail same⟩
        | .ok f => ⟨(.ok after.graph.nextId, after.leave.add l f), congrArg List.tail same⟩
-- A load may start at a file that is being loaded; it then has one more level.
termination_by (fs.unvisited c.loading + if l ∈ c.loading then 1 else 0, 0)
decreasing_by
  apply Prod.Lex.left
  by_cases hnew : l ∈ c.loading
  · rw [if_pos hnew]
    exact Nat.lt_succ_of_le (FileSystem.unvisited_cons_le fs c.loading l)
  · obtain ⟨contents, hcontents⟩ := exists_contents_of_read _hread
    obtain ⟨access, hplace⟩ := FileSystem.mem_places_of_readAt hcontents
    rw [if_neg hnew]
    exact FileSystem.unvisited_lt hplace hnew

/-- Loads what `file` imports, in order. -/
def loadImports (fs : FileSystem) (c : Catalog) (file : String) :
    (imports : List String) → Outcome c (List FileId)
  | [] => ⟨(.ok [], c), rfl⟩
  | imported :: others =>
    match fs.canonicalize (c.root / imported) with
    | .error _ => ⟨(.error (.unresolvedImport file imported), c), rfl⟩
    | .ok l =>
      if _hnew : l ∈ c.loading then ⟨(.error (.importCycle file imported), c), rfl⟩
      else
        match loadAt fs c l with
        | ⟨(.error e, after), same⟩ => ⟨(.error (importError file imported e), after), same⟩
        | ⟨(.ok id, after), same⟩ =>
          match loadImports fs after file others with
          | ⟨(.error e, final), same'⟩ => ⟨(.error e, final), same'.trans same⟩
          | ⟨(.ok ids, final), same'⟩ => ⟨(.ok (id :: ids), final), same'.trans same⟩
termination_by imports => (fs.unvisited c.loading, imports.length + 1)
decreasing_by
  · rw [if_neg _hnew]
    exact Prod.Lex.right _ (Nat.succ_pos _)
  · rw [show after.loading = c.loading from same]
    exact Prod.Lex.right _ (Nat.lt_succ_self _)

end

/-- Loads the file that a path leads to from the schema root. -/
def load (fs : FileSystem) (p : Path) : Loading FileId := fun c =>
  match fs.canonicalize (c.root.join p) with
  | .error cause => (.error (.unreadable (c.root.join p) cause), c)
  | .ok l => (loadAt fs c l).val

end Catalog

end SchemaGen
