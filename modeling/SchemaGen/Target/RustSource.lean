import SchemaGen.Target
import SchemaGen.Target.RustVocabulary

/-!
# Rust sources

Each schema file becomes a source file, in the directories of its package. A message is a struct
with a default value. An enumeration is an enum with a lookup from numbers to variants. When the run
is over, every directory gets an index that declares the modules in it.
-/

namespace SchemaGen.Rust

/-- The extension of source files. -/
def extension : String := ".rs"

/-! ## Sources -/

/-- The lines of a documentation comment. -/
def doc (indent : String) : Option String → List String
  | none => []
  | some comment => [indent ++ "/// " ++ comment]

/-- The lines that open a struct. -/
def structStart (m : Message) : List String :=
  doc "" m.comment ++
    ["#[derive(Debug, Clone, PartialEq)]", s!"pub struct {typeName m.name} \x7b"]

/-- The lines of a field. -/
def fieldLines (f : Field) (r : Rendered) : List String :=
  doc "    " f.comment ++ [s!"    pub {fieldName f.name}: {r.type},"]

/-- The line that sets a field of the default value. -/
def defaultLine (f : Field) (r : Rendered) : String :=
  s!"            {fieldName f.name}: {r.default},"

/-- The lines that end a struct whose fields are set by `defaults`. -/
def structEnd (m : Message) (defaults : List String) : List String :=
  ["\x7d",
   "",
   s!"impl Default for {typeName m.name} \x7b",
   "    fn default() -> Self \x7b",
   "        Self \x7b"] ++
  defaults ++
  ["        \x7d",
   "    \x7d",
   "\x7d",
   ""]

/-- The lines that open an enum. One without variants has no representation. -/
def enumStart (e : Enumeration) : List String :=
  doc "" e.comment ++
    ["#[derive(Debug, Clone, Copy, PartialEq, Eq, Hash)]"] ++
    (if e.kept.isEmpty then [] else ["#[repr(i32)]"]) ++
    [s!"pub enum {typeName e.name} \x7b"]

/-- The lines of a variant. -/
def variantLines (c : Constant) : List String :=
  doc "    " c.comment ++ [s!"    {typeName c.name} = {c.number},"]

/-- The branch of the lookup for a variant. -/
def branch (c : Constant) : String :=
  s!"            {c.number} => Some(Self::{typeName c.name}),"

/-- The lines that end an enum. -/
def enumEnd (e : Enumeration) (kept : List Constant) : List String :=
  ["\x7d",
   "",
   s!"impl {typeName e.name} \x7b",
   "    pub fn from_i32(value: i32) -> Option<Self> \x7b",
   "        match value \x7b"] ++
  kept.map branch ++
  ["            _ => None,",
   "        \x7d",
   "    \x7d",
   "\x7d",
   ""]

/-! ## Module indexes -/

/-- A module in the directory of other modules. -/
structure Child where
  directory : List String
  name : String
deriving DecidableEq, Repr

/-- The modules that a path of modules goes through, below `directory`. -/
def children (directory : List String) : List String → List Child
  | [] => []
  | name :: others => ⟨directory, name⟩ :: children (directory ++ [name]) others

/-- The modules that a file needs. -/
def childrenOf (f : SchemaFile) : List Child :=
  children [] (packageModules f ++ [fileModule f])

/-- `items` in the order `le`, each once. -/
def ordered {α : Type} [DecidableEq α] (le : α → α → Bool) (items : List α) : List α :=
  (items.mergeSort le).eraseReps

/-- Whether a directory does not stand behind another: the first names that differ decide. -/
def notBehind (a b : List String) : Bool :=
  !List.lex b a fun x y => decide (x < y)

/-- The directories with modules, in order, and their modules, in order. -/
def indexes (cs : List Child) : List (List String × List String) :=
  (ordered notBehind (cs.map (·.directory))).map fun directory =>
    let names := (cs.filter (·.directory = directory)).map (·.name)
    (directory, ordered (fun a b => decide (a ≤ b)) names)

/-- The lines of an index. -/
def indexLines (tool : String) (names : List String) : List String :=
  [s!"// generated by {tool}, NEVER CHANGE!!", ""] ++ names.map fun name => s!"pub mod {name};"

/-- Writes the index of a directory. -/
def writeIndex (directory : List String) (names : List String) : Emit (List Child) Unit := do
  let o := (← get).output
  Emit.prepare (directory.foldl (· / ·) o.root / ("mod" ++ o.extension)) none
  Emit.lines (indexLines o.tool names)
  Emit.close

/-! ## The target -/

/-- Takes in an event. -/
def handle (g : Graph) (f : SchemaFile) : Event → Emit (List Child) Unit
  | .beginFile => do
    let o := (← get).output
    modify fun w => { w with notes := w.notes ++ childrenOf f }
    Emit.prepare (sourcePath o.root o.extension f) (some f)
  | .beginMessage m => Emit.lines (structStart m)
  | .field field => do
    let r ← Emit.fieldType vocabulary g field
    Emit.lines (fieldLines field r)
  | .endMessage m => do
    let defaults ← m.kept.mapM fun field => do
      return defaultLine field (← Emit.fieldType vocabulary g field)
    Emit.lines (structEnd m defaults)
  | .beginEnum e => Emit.lines (enumStart e)
  | .constant c _ => Emit.lines (variantLines c)
  | .endEnum e kept => Emit.lines (enumEnd e kept)
  | .endFile => Emit.close
  | _ => return

/-- Writes the indexes of all modules since the last run. -/
def finish : Emit (List Child) Unit := do
  Emit.close
  let noted := (← get).notes
  modify fun w => { w with notes := [] }
  (indexes noted).forM fun (directory, names) => writeIndex directory names

/-- The target that generates Rust. -/
def target : Target (List Child) where
  refuses _ := false
  handle
  finish

end SchemaGen.Rust
