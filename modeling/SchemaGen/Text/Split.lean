/-!
# Splitting text at a separator

Text is cut at every occurrence of one character. Joining the pieces with that character gives the
text back, so the number of pieces is one more than the number of separators.
-/

namespace SchemaGen.Text

/-- The pieces of a text between the occurrences of `sep`; a text without `sep` is one piece. -/
def split (sep : Char) : List Char → List (List Char)
  | [] => [[]]
  | c :: cs =>
    if c = sep then [] :: split sep cs
    else
      match split sep cs with
      | [] => [[c]]
      | piece :: pieces => (c :: piece) :: pieces

/-- The pieces of `s` that hold at least one character. -/
def words (sep : Char) (s : String) : List String :=
  ((split sep s.toList).filter (!·.isEmpty)).map String.ofList

/-- `s` cut at the last occurrence of `sep`: what stands before it and what stands after it. -/
def splitLast? (sep : Char) (s : String) : Option (String × String) :=
  let back := s.toList.reverse
  match back.dropWhile (· != sep) with
  | [] => none
  | _ :: front =>
    some (String.ofList front.reverse, String.ofList (back.takeWhile (· != sep)).reverse)

/-- `cs` without the characters at its front that satisfy `p`, nor those at its end. -/
def trimWhile (p : Char → Bool) (cs : List Char) : List Char :=
  ((cs.dropWhile p).reverse.dropWhile p).reverse

end SchemaGen.Text
