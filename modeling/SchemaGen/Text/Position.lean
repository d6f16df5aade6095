/-!
# Positions in a text

Lines and columns count from one. A newline ends its line; every other character is one column.
-/

namespace SchemaGen.Text

/-- A line and a column of a text. -/
structure Position where
  line : Nat
  column : Nat
deriving DecidableEq, Repr

namespace Position

/-- The position of a text's first character. -/
def start : Position := ⟨1, 1⟩

/-- The position behind the character `c` that stands at `p`. -/
def step (p : Position) (c : Char) : Position :=
  if c = '\n' then ⟨p.line + 1, 1⟩ else ⟨p.line, p.column + 1⟩

/-- The position behind the text `cs` that starts at `p`. -/
def after (p : Position) (cs : List Char) : Position :=
  cs.foldl step p

end Position

end SchemaGen.Text
