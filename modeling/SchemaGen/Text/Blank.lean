import SchemaGen.Text.CodePoints
import SchemaGen.Text.Split

/-!
# Blank characters

A character is blank when it has the Unicode property White_Space. Besides the ASCII blanks these
are the no-break space, the line and paragraph separators and the typographic spaces.
-/

namespace SchemaGen.Text

/-- The ranges of the property White_Space. -/
def blankRanges : List (Nat × Nat) :=
  [(9, 0xD), (0x20, 0x20), (0x85, 0x85), (0xA0, 0xA0), (0x1680, 0x1680), (0x2000, 0x200A),
   (0x2028, 0x2029), (0x202F, 0x202F), (0x205F, 0x205F), (0x3000, 0x3000)]

/-- Whether `c` is blank. -/
def isBlank (c : Char) : Bool :=
  inRanges blankRanges c

/-- `cs` without the blanks at its front and at its end. -/
def trimBlanks (cs : List Char) : List Char :=
  trimWhile isBlank cs

end SchemaGen.Text
