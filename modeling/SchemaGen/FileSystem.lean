import SchemaGen.Path

/-!
# File systems

A file system is a tree of directories, files and symbolic links. A location is the list of names
that lead from the root to a place, without dots and without links on the way, so two locations are
the same place only if they are equal.
-/

namespace SchemaGen

/-- A place in a file system: the names that lead to it from the root. -/
abbrev Location := List String

/-- The absolute path of a location. -/
def Location.path (l : Location) : Path :=
  ⟨"/" ++ "/".intercalate l⟩

/-- What may be done with the contents of a file or with the list of a directory's entries. What a
directory has under a name that is known can be reached in any case. -/
inductive Access where
  | full
  | readOnly
  | none
deriving DecidableEq, Repr

/-- What can lie at a place. -/
inductive Node where
  | file (access : Access) (contents : ByteArray)
  | directory (access : Access) (entries : List (String × Node))
  | link (target : Path)

/-- Why the file system refuses a request. -/
inductive FileError where
  | notFound
  | notPermitted
  | alreadyThere
  | notDirectory
  | isDirectory
  | nameTooLong
  | tooManyLinks
  | nullCharacter
deriving DecidableEq, Repr

/-- The text of the error. -/
def FileError.message : FileError → String
  | notFound => "No such file or directory (os error 2)"
  | notPermitted => "Permission denied (os error 13)"
  | alreadyThere => "File exists (os error 17)"
  | notDirectory => "Not a directory (os error 20)"
  | isDirectory => "Is a directory (os error 21)"
  | nameTooLong => "File name too long (os error 36)"
  | tooManyLinks => "Too many levels of symbolic links (os error 40)"
  | nullCharacter => "file name contained an unexpected NUL byte"

namespace Node

/-- A directory with nothing in it. -/
def emptyDirectory : Node := .directory .full []

/-- What a directory has under a name; nothing else has entries. -/
def child? : Node → String → Option Node
  | directory _ entries, name => entries.lookup name
  | _, _ => none

/-- What lies at a location below the node. -/
def at? : Location → Node → Option Node
  | [], n => some n
  | name :: rest, n =>
    match n.child? name with
    | some m => at? rest m
    | none => none

/-- `entries` with `n` under `name`, in the place of what had the name. -/
def setEntry (name : String) (n : Node) : List (String × Node) → List (String × Node)
  | [] => [(name, n)]
  | (other, m) :: rest =>
    if other = name then (name, n) :: rest else (other, m) :: setEntry name n rest

/-- The node with `m` at a location below it. The directories on the way must be there. -/
def put (m : Node) : Location → Node → Node
  | [], _ => m
  | name :: rest, directory access entries =>
    match entries.lookup name with
    | some n => directory access (setEntry name (put m rest n) entries)
    | none =>
      if rest = [] then directory access (setEntry name m entries)
      else directory access entries
  | _, n => n

mutual

/-- All that lies at and below the node, with the locations. -/
def places : Node → List (Location × Node)
  | file access contents => [([], file access contents)]
  | link target => [([], link target)]
  | directory access entries => ([], directory access entries) :: placesIn entries

/-- All that lies at and below the entries of a directory. -/
def placesIn : List (String × Node) → List (Location × Node)
  | [] => []
  | (name, n) :: others => (places n).map (fun (l, m) => (name :: l, m)) ++ placesIn others

end

theorem mem_placesIn {name : String} {n m : Node} {l : Location} {entries : List (String × Node)}
    (hentry : entries.lookup name = some n) (hplace : (l, m) ∈ n.places) :
    (name :: l, m) ∈ placesIn entries := by
  induction entries with
  | nil => simp at hentry
  | cons entry others ih =>
    obtain ⟨other, k⟩ := entry
    rw [List.lookup_cons] at hentry
    rw [placesIn, List.mem_append]
    split at hentry
    · next heq =>
      obtain rfl := Option.some.inj hentry
      obtain rfl := eq_of_beq heq
      exact Or.inl (List.mem_map.2 ⟨(l, m), hplace, rfl⟩)
    · exact Or.inr (ih hentry)

theorem mem_places_of_at? {l : Location} {n m : Node} (h : at? l n = some m) :
    (l, m) ∈ n.places := by
  induction l generalizing n with
  | nil =>
    obtain rfl := Option.some.inj h
    cases n <;> simp [places]
  | cons name rest ih =>
    simp only [at?] at h
    split at h
    · next k hentry =>
      cases n with
      | directory access entries =>
        rw [places]
        exact List.mem_cons_of_mem _ (mem_placesIn hentry (ih h))
      | file => cases hentry
      | link => cases hentry
    · cases h

end Node

/-- A file system, and the directory that relative paths start from. -/
structure FileSystem where
  root : Node
  workingDir : Location

namespace FileSystem

/-- The file system that has only a root. -/
def empty : FileSystem := ⟨.emptyDirectory, []⟩

/-- What lies at a location. -/
def node? (fs : FileSystem) (l : Location) : Option Node :=
  Node.at? l fs.root

/-- Whether entries may be added to the directory at a location and taken from it. -/
def isWritable (fs : FileSystem) (l : Location) : Bool :=
  match fs.node? l with
  | some (.directory access _) => access = .full
  | _ => false

/-- The file system with `n` at `l`, in the place of what was there. -/
def put (fs : FileSystem) (l : Location) (n : Node) : FileSystem :=
  { fs with root := Node.put n l fs.root }

/-- All that lies in the file system, with the locations. -/
def places (fs : FileSystem) : List (Location × Node) :=
  fs.root.places

theorem mem_places_of_node? {fs : FileSystem} {l : Location} {n : Node} (h : fs.node? l = some n) :
    (l, n) ∈ fs.places :=
  Node.mem_places_of_at? h

end FileSystem

end SchemaGen
