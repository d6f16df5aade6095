import SchemaGen.Text.Escaped
import SchemaGen.Text.Quoted

/-!
# What is wrong with a settings file

A settings file is JSON. It can fail to be JSON at all, or have a value of the wrong type, or a
field that is unknown or given twice.
-/

namespace SchemaGen.Settings

/-- The fields of a settings file, in the order in which a list gives them. -/
inductive Key where
  | skip
  | outDir
  | fileExt
  | tool
  | schemaExt
deriving DecidableEq, Repr

namespace Key

/-- All fields. -/
def all : List Key := [skip, outDir, fileExt, tool, schemaExt]

/-- How a field is written. -/
def name : Key → String
  | skip => "skip"
  | outDir => "out_dir"
  | fileExt => "file_ext"
  | tool => "tool"
  | schemaExt => "schema_ext"

/-- The field that is written `name`. -/
def ofName? (name : String) : Option Key :=
  all.find? fun key => key.name = name

end Key

/-- The types that a settings file needs. -/
inductive Needed where
  | settings
  | list
  | text
  | path
deriving DecidableEq, Repr

/-- How a needed type is named in a message. -/
def Needed.describe : Needed → String
  | settings => "struct CompilerConfig"
  | list => "a sequence"
  | text => "a string"
  | path => "path string"

/-- A value that stands where another type is needed. -/
inductive Found where
  | null
  | bool (value : Bool)
  | integer (value : Int)
  | float (shown : String)
  | text (value : String)
  | list
  | object
deriving DecidableEq, Repr

/-- How a found value is named in a message. -/
def Found.describe : Found → String
  | null => "null"
  | bool value => s!"boolean `{value}`"
  | integer value => s!"integer `{value}`"
  | float shown => s!"floating point `{shown}`"
  | text value => s!"string {Text.showText value}"
  | list => "sequence"
  | object => "map"

/-- What is wrong with a settings file. -/
inductive Fault where
  | endInValue
  | endInObject
  | endInList
  | noValue
  | noWord
  | noColon
  | noCommaOrBrace
  | noCommaOrBracket
  | trailingComma
  | trailingText
  | keyNotText
  | literal (error : Text.LiteralError)
  | badNumber
  | hugeNumber
  | wrongType (found : Found) (needed : Needed)
  | unknownField (name : String)
  | repeatedField (key : Key)
deriving DecidableEq, Repr

/-- What is wrong with a string. -/
def literalMessage : Text.LiteralError → String
  | .unterminated => "EOF while parsing a string"
  | .controlCharacter => "control character (\\u0000-\\u001F) found while parsing a string"
  | .invalidEscape => "invalid escape"
  | .unfinishedPair => "unexpected end of hex escape"
  | .loneSurrogate => "lone leading surrogate in hex escape"

/-- The text of the fault. -/
def Fault.message : Fault → String
  | endInValue => "EOF while parsing a value"
  | endInObject => "EOF while parsing an object"
  | endInList => "EOF while parsing a list"
  | noValue => "expected value"
  | noWord => "expected ident"
  | noColon => "expected `:`"
  | noCommaOrBrace => "expected `,` or `\x7d`"
  | noCommaOrBracket => "expected `,` or `]`"
  | trailingComma => "trailing comma"
  | trailingText => "trailing characters"
  | keyNotText => "key must be a string"
  | literal error => literalMessage error
  | badNumber => "invalid number"
  | hugeNumber => "number out of range"
  | wrongType found needed => s!"invalid type: {found.describe}, expected {needed.describe}"
  | unknownField name =>
    let known := ", ".intercalate (Key.all.map fun key => s!"`{key.name}`")
    s!"unknown field `{name}`, expected one of {known}"
  | repeatedField key => s!"duplicate field `{key.name}`"

end SchemaGen.Settings
