import SchemaGen.Text.Split

/-!
# Paths

A path is a text with slashes. It is kept as written, since messages show it so; what it means is
given by its components. Repeated slashes and inner dots mean nothing, a leading slash is a
component of its own.
-/

namespace SchemaGen

/-- A path as written. -/
structure Path where
  text : String
deriving DecidableEq, Repr

/-- A step of a path. -/
inductive PathComponent where
  /-- The root of the file system. -/
  | root
  /-- The directory itself; only at the start of a path. -/
  | here
  /-- The parent directory. -/
  | up
  | name (piece : String)
deriving DecidableEq, Repr

/-- How a component is written. -/
def PathComponent.text : PathComponent → String
  | root => "/"
  | here => "."
  | up => ".."
  | name piece => piece

/-- The component that a piece of a path between slashes is. -/
def PathComponent.ofPiece (piece : String) : PathComponent :=
  if piece = "." then here else if piece = ".." then up else name piece

namespace Path

/-- Whether the path starts at the root. -/
def isAbsolute (p : Path) : Bool :=
  p.text.toList.head? = some '/'

/-- Whether the path ends with a slash. -/
def endsWithSlash (p : Path) : Bool :=
  p.text.toList.getLast? = some '/'

/-- The pieces of the path between its slashes, without the empty ones. -/
def pieces (p : Path) : List String :=
  Text.words '/' p.text

/-- The components of the path. -/
def components (p : Path) : List PathComponent :=
  let steps := p.pieces.map PathComponent.ofPiece
  if p.isAbsolute then .root :: steps.filter (· ≠ .here)
  else
    match steps with
    | .here :: rest => .here :: rest.filter (· ≠ .here)
    | steps => steps.filter (· ≠ .here)

/-- `q` seen from `p`: behind `p` with a slash between them, unless `q` is absolute. -/
def join (p q : Path) : Path :=
  if q.isAbsolute then q
  else if p.text.isEmpty || p.endsWithSlash then ⟨p.text ++ q.text⟩
  else ⟨p.text ++ "/" ++ q.text⟩

instance : HDiv Path String Path := ⟨fun p name => p.join ⟨name⟩⟩

/-- The path written with these components. -/
def ofComponents : List PathComponent → Path
  | [] => ⟨""⟩
  | .root :: rest => ⟨"/" ++ "/".intercalate (rest.map PathComponent.text)⟩
  | steps => ⟨"/".intercalate (steps.map PathComponent.text)⟩

/-- The components joined with slashes, where the root counts as a component. -/
def slashed (p : Path) : String :=
  "/".intercalate (p.components.map PathComponent.text)

/-- Whether two paths have the same components. -/
def same (p q : Path) : Bool :=
  p.components = q.components

/-- A path that is read backwards, without the slashes and dots at its end that mean nothing. -/
def trimBack : List Char → List Char
  | [] => []
  | c :: cs =>
    if c = '/' ∧ cs ≠ [] ∨ c = '.' ∧ cs.head? = some '/' then trimBack cs else c :: cs

/-- The path without its last component; the empty path and the root have no parent. -/
def parent? (p : Path) : Option Path :=
  match trimBack p.text.toList.reverse with
  | [] | ['/'] => none
  | cs => some ⟨String.ofList (trimBack (cs.dropWhile (· ≠ '/'))).reverse⟩

/-- `p` as seen from `base`, if it lies below `base`. -/
def below? (base p : Path) : Option Path :=
  if base.components.isPrefixOf p.components then
    some (ofComponents (p.components.drop base.components.length))
  else none

/-- The name of the file that the path leads to. -/
def fileName? (p : Path) : Option String :=
  match p.components.getLast? with
  | some (.name name) => some name
  | _ => none

/-- The file name without its extension. A leading dot starts no extension. -/
def stem? (p : Path) : Option String :=
  p.fileName?.map fun name =>
    match Text.splitLast? '.' name with
    | some ("", _) | none => name
    | some (stem, _) => stem

/-- What stands behind the last dot of the file name. A leading dot starts no extension. -/
def extension? (p : Path) : Option String :=
  p.fileName?.bind fun name =>
    match Text.splitLast? '.' name with
    | some ("", _) | none => none
    | some (_, extension) => some extension

/-- The path of a package: its segments joined one by one. -/
def ofPackage (package : String) : Path :=
  (Text.words '.' package).foldl (· / ·) ⟨""⟩

end Path

end SchemaGen
