import SchemaGen.Target.Vocabulary

/-!
# Types in Java sources

Base types are Java's primitive types where there is one; inside lists and maps their wrapper
classes stand for them. Messages are named by the Java package of their file.
-/

namespace SchemaGen.Java

/-- The Java package of a file: its option `java_package`, or else its schema package. -/
def packageOf (f : SchemaFile) : String :=
  ((f.option? "java_package").or f.package?).getD ""

/-- The type and the zero of a base type. -/
def base : BaseType → Rendered
  | .int64 => ⟨"long", "0L"⟩
  | .int32 => ⟨"int", "0"⟩
  | .string => ⟨"String", "\"\""⟩
  | .bool => ⟨"boolean", "false"⟩
  | .float => ⟨"float", "0F"⟩
  | .double => ⟨"double", "0"⟩
  | .bytes => ⟨"String", "\"\""⟩

/-- The wrapper class of a primitive type; any other type stands for itself. -/
def boxed (type : String) : String :=
  if type = "long" then "Long"
  else if type = "int" then "Integer"
  else if type = "boolean" then "Boolean"
  else if type = "float" then "Float"
  else if type = "double" then "Double"
  else type

/-- The words of Java. -/
def vocabulary : Vocabulary where
  base
  null := "null"
  messageName f m := packageOf f ++ "." ++ m.name
  list item := s!"java.util.List<{item}>"
  map key value := s!"java.util.Map<{key}, {value}>"
  boxed
  reference name := name

end SchemaGen.Java
