import SchemaGen.Text.Position
import SchemaGen.Text.Quoted

/-!
# What is wrong with a schema text

A cause says what was found where something else was needed; its position is that of the offending
token or character.
-/

namespace SchemaGen

open Text (Position quote)

/-- What the grammar needs at some point. -/
inductive Expected where
  | text (word : String)
  | identifier
  | integer
  | string
  | optionValue
deriving DecidableEq, Repr

/-- How the needed thing is named in a message. -/
def Expected.describe : Expected → String
  | .text word => quote word
  | .identifier => "identifier"
  | .integer => "integer"
  | .string => "string"
  | .optionValue => "option value"

/-- What is wrong with a schema text. -/
inductive SyntaxCause where
  /-- No token starts with these characters. -/
  | noToken (text : String)
  /-- Another token, or the end of the file, stands where something is needed. -/
  | expected (what : Expected) (found : Option String)
  /-- No statement starts with this token. -/
  | unexpected (text : String)
  /-- A definition of this kind cannot stand inside another. -/
  | nested (keyword : String)
  /-- A map field is declared repeated. -/
  | repeatedMap
  /-- A field number is no integer of 32 bits. -/
  | badInteger (text : String)
  /-- There is not even a token that marks the end of the file. -/
  | noEndOfFile
deriving DecidableEq, Repr

/-- The text of a cause. -/
def SyntaxCause.message : SyntaxCause → String
  | .noToken text => s!"Syntax error: {quote text}"
  | .expected what found =>
    let found := match found with
      | some text => quote text
      | none => "end of file"
    s!"Expected {what.describe} but found {found}"
  | .unexpected text => s!"Unexpected token {quote text}"
  | .nested keyword => s!"Nested {quote keyword} is not supported"
  | .repeatedMap => "Map fields cannot be repeated"
  | .badInteger text => s!"Invalid integer {quote text}"
  | .noEndOfFile => "Expected end of file token"

/-- A fault of a schema text and where it is. -/
structure SyntaxError where
  cause : SyntaxCause
  position : Position
deriving DecidableEq, Repr

/-- The text of the fault with its position. -/
def SyntaxError.message (e : SyntaxError) : String :=
  s!"{e.cause.message} at line {e.position.line}, column {e.position.column}"

end SchemaGen
