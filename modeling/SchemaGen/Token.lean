import SchemaGen.Text.Position

/-!
# Tokens

The words of a schema text. Comments are tokens of their own, because declarations carry them;
blanks are none. The last token of a text marks its end and has no characters.
-/

namespace SchemaGen

open Text (Position)

/-- What a token is. -/
inductive TokenKind where
  | identifier
  | integer
  | string
  | symbol
  | comment
  | endOfFile
deriving DecidableEq, Repr

/-- A word of a schema text with the position of its first character. -/
structure Token where
  kind : TokenKind
  text : String
  position : Position
deriving DecidableEq, Repr

namespace Token

/-- Whether the token is the keyword or symbol `text`. Strings and comments never are, whatever
their characters. -/
def is (t : Token) (text : String) : Bool :=
  t.kind ≠ .string && t.kind ≠ .comment && t.text == text

/-- Whether the token is a comment. -/
def isComment (t : Token) : Bool :=
  t.kind = .comment

end Token

end SchemaGen
