import SchemaGen.Target.RustModule
import SchemaGen.Target.Vocabulary

/-!
# Types in Rust sources

A message is named by its path from the crate root. Whatever may be absent is an option; a reference
is also boxed, so that messages can hold themselves.
-/

namespace SchemaGen.Rust

/-- The type and the zero of a base type. -/
def base : BaseType → Rendered
  | .int64 => ⟨"i64", "0"⟩
  | .int32 => ⟨"i32", "0"⟩
  | .string => ⟨"String", "String::new()"⟩
  | .bool => ⟨"bool", "false"⟩
  | .float => ⟨"f32", "0.0"⟩
  | .double => ⟨"f64", "0.0"⟩
  | .bytes => ⟨"Vec<u8>", "Vec::new()"⟩

/-- The words of Rust. -/
def vocabulary : Vocabulary where
  base
  null := "None"
  messageName f m := modulePath f ++ "::" ++ typeName m.name
  list item := s!"Option<Vec<{item}>>"
  map key value := s!"Option<std::collections::HashMap<{key}, {value}>>"
  boxed type := type
  reference name := s!"Option<Box<{name}>>"

end SchemaGen.Rust
