import SchemaGen.FileSystem

/-!
# Where paths lead

A path is followed name by name from the root or from the working directory. A link is replaced by
its target, at most forty times for one path, so that following a path always ends. Whatever has
another name behind it must be a directory, and so must whatever has a slash behind it.

A request names its path at once, so the path itself may not be too long. Finding the location of a
path asks for one name after the other instead: there the way so far, free of links and dots, may
not be too long.
-/

namespace SchemaGen

/-- Where a path leads. -/
inductive Place where
  | found (location : Location) (node : Node)
  /-- The directory is there, and nothing in it has the name. -/
  | vacant (directory : Location) (name : String)

/-- What a path is followed for. -/
inductive Purpose where
  /-- To find what it leads to, also behind a link in last place. -/
  | reach
  /-- To find what it names, be it a link. -/
  | name
  /-- To write a file there; a name with a slash behind it can only be a directory. -/
  | write
  /-- To find the location of what it leads to. -/
  | resolve
deriving DecidableEq, Repr

namespace Path

/-- The steps that a path takes. A slash at its end is a step without a name, which stays. -/
def steps (p : Path) : List String :=
  if p.pieces ≠ [] ∧ p.endsWithSlash then p.pieces ++ [""] else p.pieces

/-- The bytes of the path. -/
def size (p : Path) : Nat :=
  p.text.utf8ByteSize

end Path

/-- The way from the root to a place: the entries it goes through, last one first. -/
abbrev Trail := List (String × Node)

namespace Trail

/-- The location at the end of the way. -/
def location (t : Trail) : Location :=
  (t.map (·.1)).reverse

/-- The bytes of the path of the location; the root takes none. -/
def size (t : Trail) : Nat :=
  (t.map fun (name, _) => name.utf8ByteSize + 1).foldr (· + ·) 0

end Trail

namespace FileSystem

/-- The bytes that a name may have. -/
def maxNameSize : Nat := 255

/-- The bytes that a path has fewer of. -/
def maxPathSize : Nat := 4096

/-- The links that one path may lead through. -/
def maxLinks : Nat := 40

/-- What lies at the end of a way. -/
def endOf (fs : FileSystem) : Trail → Node
  | [] => fs.root
  | (_, n) :: _ => n

/-- The way on from `here` to a location below it. -/
def wayTo? (fs : FileSystem) (here : Trail) : Location → Option Trail
  | [] => some here
  | name :: rest =>
    match (fs.endOf here).child? name with
    | some n => fs.wayTo? ((name, n) :: here) rest
    | none => none

/-- Whether a name is too long to be asked for behind `here`. -/
def isTooLong (purpose : Purpose) (here : Trail) (name : String) : Bool :=
  maxNameSize < name.utf8ByteSize ||
    purpose = .resolve && maxPathSize ≤ here.size + 1 + name.utf8ByteSize

/-- Takes `steps` from `here`. A link on the way is left to `jump`, which gets the place and the
steps to go on with. -/
def follow (fs : FileSystem) (purpose : Purpose)
    (jump : Trail → List String → Except FileError Place) :
    Trail → List String → Except FileError Place
  | here, [] => .ok (.found here.location (fs.endOf here))
  | here, step :: rest =>
    match fs.endOf here with
    | .directory _ entries =>
      if step = "" ∨ step = "." then follow fs purpose jump here rest
      else if step = ".." then follow fs purpose jump here.tail rest
      else if purpose = .write ∧ rest = [""] then .error .isDirectory
      else if isTooLong purpose here step then .error .nameTooLong
      else
        match entries.lookup step with
        | none => if rest = [] then .ok (.vacant here.location step) else .error .notFound
        | some (.link target) =>
          if purpose = .name ∧ rest = [] then
            .ok (.found (here.location ++ [step]) (.link target))
          else jump (if target.isAbsolute then [] else here) (target.steps ++ rest)
        | some n => follow fs purpose jump ((step, n) :: here) rest
    | _ => .error .notDirectory

/-- Takes `steps` from `here`, through at most `links` links. -/
def walk (fs : FileSystem) (purpose : Purpose) : (links : Nat) → Trail → List String →
    Except FileError Place
  | 0 => fs.follow purpose fun _ _ => .error .tooManyLinks
  | links + 1 => fs.follow purpose (fs.walk purpose links)

/-- Where `steps` lead if `p` says where they start. -/
def locate (fs : FileSystem) (purpose : Purpose) (p : Path) (steps : List String) :
    Except FileError Place :=
  if p.text.isEmpty then .error .notFound
  else if p.text.toList.contains '\x00' then .error .nullCharacter
  else if purpose ≠ .resolve ∧ maxPathSize ≤ p.size then .error .nameTooLong
  else
    match fs.wayTo? [] (if p.isAbsolute then [] else fs.workingDir) with
    | some start => fs.walk purpose maxLinks start steps
    | none => .error .notFound

/-- What a path leads to, behind all links. -/
def find (fs : FileSystem) (p : Path) : Except FileError Node :=
  match fs.locate .reach p p.steps with
  | .ok (.found _ node) => .ok node
  | .ok (.vacant _ _) => .error .notFound
  | .error e => .error e

/-- The location that a path leads to. -/
def canonicalize (fs : FileSystem) (p : Path) : Except FileError Location :=
  match fs.locate .resolve p p.steps with
  | .ok (.found location _) => .ok location
  | .ok (.vacant _ _) => .error .notFound
  | .error e => .error e

/-- Whether a path leads to a directory. -/
def isDirectory (fs : FileSystem) (p : Path) : Bool :=
  match fs.find p with
  | .ok (.directory ..) => true
  | _ => false

/-- The contents of a node. -/
def contentsOf : Node → Except FileError ByteArray
  | .file access contents => if access = .none then .error .notPermitted else .ok contents
  | .directory .. => .error .isDirectory
  | .link _ => .error .tooManyLinks

/-- The contents of the file that a path leads to. -/
def read (fs : FileSystem) (p : Path) : Except FileError ByteArray := do
  contentsOf (← fs.find p)

/-- The contents of the file at a location. -/
def readAt (fs : FileSystem) (l : Location) : Except FileError ByteArray :=
  match fs.node? l with
  | some n => contentsOf n
  | none => .error .notFound

theorem contentsOf_eq_ok_iff {n : Node} {contents : ByteArray} :
    contentsOf n = .ok contents ↔ ∃ access, n = .file access contents ∧ access ≠ .none := by
  cases n with
  | file access other => cases access <;> simp [contentsOf, and_assoc]
  | directory | link => simp [contentsOf]

theorem mem_places_of_readAt {fs : FileSystem} {l : Location} {contents : ByteArray}
    (h : fs.readAt l = .ok contents) : ∃ access, (l, .file access contents) ∈ fs.places := by
  unfold readAt at h
  split at h
  · next n hn =>
    obtain ⟨access, rfl, -⟩ := contentsOf_eq_ok_iff.1 h
    exact ⟨access, mem_places_of_node? hn⟩
  · cases h

/-- What lies directly in the directory that a path leads to, in the order of names. A directory that
may not be listed shows nothing. -/
def list (fs : FileSystem) (p : Path) : List (String × Node) :=
  match fs.find p with
  | .ok (.directory access entries) =>
    if access = .none then [] else entries.mergeSort fun a b => a.1 ≤ b.1
  | _ => []

end FileSystem

end SchemaGen
