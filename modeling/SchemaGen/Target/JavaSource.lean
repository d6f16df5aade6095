import SchemaGen.Target
import SchemaGen.Target.JavaVocabulary

/-!
# Java sources

Each definition becomes a source file of its own, below the directory of its Java package. A message
is a class with public fields. An enumeration is an enum whose constants know their numbers, with a
lookup from numbers to constants.
-/

namespace SchemaGen.Java

/-- The extension of source files. -/
def extension : String := ".java"

/-- The lines of a documentation comment. -/
def doc (indent : String) : Option String → List String
  | none => []
  | some comment => [indent ++ "/**", indent ++ " * " ++ comment, indent ++ " */"]

/-- The lines that open the type for a definition. -/
def typeStart (f : SchemaFile) (keyword : String) (d : Described) : List String :=
  let package := packageOf f
  (if package.isEmpty then [] else [s!"package {package};", ""]) ++
    doc "" d.comment ++ [s!"public {keyword} {d.name} \x7b"]

/-- The line that declares a field. -/
def fieldLine (f : Field) (r : Rendered) : String :=
  s!"  public {r.type} {f.name} = {r.default};"

/-- The lines that end a class. -/
def messageEnd : List String := ["\x7d", ""]

/-- The lines of an enum constant. -/
def constantLines (c : Constant) (isLast : Bool) : List String :=
  let mark := if isLast then ";" else ","
  doc "  " c.comment ++ [s!"  {c.name}({c.number}){mark}"]

/-- The branch of the lookup for a constant. -/
def branch (c : Constant) : String :=
  s!"      case {c.number}: return {c.name};"

/-- The lines that end an enum. Without constants a semicolon has to stand in their place. -/
def enumEnd (e : Enumeration) (kept : List Constant) : List String :=
  (if kept.isEmpty then ["  ;"] else []) ++
    ["",
     s!"  public static final {e.name} valueOf(int value) \x7b",
     "    switch (value) \x7b"] ++
    kept.map branch ++
    ["      default: return null;",
     "    \x7d",
     "  \x7d",
     "",
     "  private final int value;",
     "",
     "  public int getValue() \x7b return this.value; \x7d",
     "",
     s!"  private {e.name}(int value) \x7b this.value = value; \x7d",
     "",
     "\x7d",
     ""]

/-- Takes in an event. -/
def handle (g : Graph) (f : SchemaFile) : Event → Emit Unit Unit
  | .beginDefinition d => Emit.openDefinition f (packageOf f) d
  | .beginMessage m => Emit.lines (typeStart f "class" m.toDescribed)
  | .field field => do
    Emit.lines (doc "  " field.comment)
    let r ← Emit.fieldType vocabulary g field
    Emit.line (fieldLine field r)
  | .endMessage _ => Emit.lines messageEnd
  | .beginEnum e => Emit.lines (typeStart f "enum" e.toDescribed)
  | .constant c isLast => Emit.lines (constantLines c isLast)
  | .endEnum e kept => Emit.lines (enumEnd e kept)
  | .endDefinition _ => Emit.close
  | _ => return

/-- The target that generates Java. -/
def target : Target Unit where
  refuses _ := false
  handle
  finish := Emit.close

end SchemaGen.Java
