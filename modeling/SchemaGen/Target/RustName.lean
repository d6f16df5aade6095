import SchemaGen.Text.Identifier

/-!
# Names in Rust sources

Types are named in Pascal case, fields and modules in snake case. A name that is a reserved word
gets an underscore behind it. Modules come from file names and packages, so hyphens and dots become
underscores and a leading digit gets an underscore before it.
-/

namespace SchemaGen.Rust

open Text (pascalCase snakeCase)

/-- The words that cannot be names. -/
def keywords : List String :=
  ["as", "async", "await", "break", "const", "continue", "crate", "dyn", "else", "enum", "extern",
   "false", "fn", "for", "if", "impl", "in", "let", "loop", "match", "mod", "move", "mut", "pub",
   "ref", "return", "self", "Self", "static", "struct", "super", "trait", "true", "type", "unsafe",
   "use", "where", "while"]

/-- `name`, with an underscore behind it if it is a reserved word. -/
def escapeKeyword (name : String) : String :=
  if keywords.contains name then name ++ "_" else name

/-- The name of the type for a definition or of the variant for a constant. -/
def typeName (name : String) : String :=
  escapeKeyword (pascalCase name)

/-- The name of the field for a field. -/
def fieldName (name : String) : String :=
  escapeKeyword (snakeCase name)

/-- `name` with underscores for hyphens and dots. -/
def plainName (name : String) : String :=
  String.ofList (name.toList.map fun c => if c = '-' ∨ c = '.' then '_' else c)

/-- The name of the module for a package segment or a file stem. -/
def moduleName (name : String) : String :=
  let ident := fieldName (plainName name)
  if ident.toList.head?.any Char.isDigit then "_" ++ ident else ident

end SchemaGen.Rust
