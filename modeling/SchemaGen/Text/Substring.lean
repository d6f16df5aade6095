/-!
# Texts inside texts
-/

namespace SchemaGen.Text

/-- Whether `part` occurs somewhere in a text. -/
def occursIn (part : List Char) : List Char → Bool
  | [] => part.isEmpty
  | c :: cs => part.isPrefixOf (c :: cs) || occursIn part cs

end SchemaGen.Text
