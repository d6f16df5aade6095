import SchemaGen.Text.Case
import SchemaGen.Text.Split

/-!
# Identifiers in other styles

Names are turned into `PascalCase` and `snake_case`. Snake case lowers letters and inserts
underscores and changes nothing else; a run of capitals stays together, so that acronyms survive.
-/

namespace SchemaGen.Text

/-- `word` with a capital first letter, and with the rest in small letters if `lower` is set. -/
def capitalize (lower : Bool) : List Char → List Char
  | [] => []
  | c :: cs => capital c ++ if lower then smalls cs else cs

/-- `cs` in Pascal case. With underscores each word between them is capitalized and lowered;
without, only a text that is all capitals is lowered behind its first letter. -/
def pascalChars (cs : List Char) : List Char :=
  if cs.contains '_' then ((split '_' cs).map (capitalize true)).flatten
  else capitalize (cs = capitals cs) cs

/-- `s` in Pascal case. -/
def pascalCase (s : String) : String :=
  String.ofList (pascalChars s.toList)

/-- Whether a new word starts at a capital letter between `before` and `after`: behind a character
that is neither a capital nor an underscore, or at the last capital of a run. -/
def startsWord (before after : Option Char) : Bool :=
  match before with
  | none => false
  | some b => if isCapital b then after.any isSmall else b ≠ '_'

/-- `cs` in snake case, where `before` is the character that precedes it. -/
def snakeAfter (before : Option Char) : List Char → List Char
  | [] => []
  | c :: cs =>
    let lowered :=
      if isCapital c then
        if startsWord before cs.head? then '_' :: small c else small c
      else [c]
    lowered ++ snakeAfter (some c) cs

/-- `s` in snake case. -/
def snakeCase (s : String) : String :=
  String.ofList (snakeAfter none s.toList)

end SchemaGen.Text
