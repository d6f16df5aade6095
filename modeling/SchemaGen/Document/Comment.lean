import SchemaGen.Text.Blank

/-!
# Comments

What a comment says, freed of the marks that make it one. A block comment may lead its lines with
stars; its lines are joined with single spaces. The comments of one declaration are joined the same
way, and those that say nothing leave no trace.
-/

namespace SchemaGen.Document

open Text (split trimBlanks)

/-- `texts` one after another with a space between any two. -/
def joinWithSpaces (texts : List (List Char)) : List Char :=
  [' '].intercalate texts

/-- `cs`, given backwards, without the closing marks `*/` at its end. -/
def dropClosingMarks : List Char → List Char
  | c :: d :: cs => if c = '/' ∧ d = '*' then dropClosingMarks cs else c :: d :: cs
  | cs => cs

/-- What one line of a block comment says. -/
def commentLine (line : List Char) : List Char :=
  trimBlanks ((trimBlanks line).dropWhile (· = '*'))

/-- What a block comment says, given what stands behind its opening mark. -/
def blockText (cs : List Char) : List Char :=
  let body := (dropClosingMarks cs.reverse).reverse
  joinWithSpaces (((split '\n' body).map commentLine).filter (!·.isEmpty))

/-- What a comment says. -/
def commentChars (cs : List Char) : List Char :=
  match cs with
  | '/' :: '*' :: rest => blockText rest
  | _ => trimBlanks (cs.dropWhile (· = '/'))

/-- What a comment token with this text says. -/
def commentText (raw : String) : String :=
  String.ofList (commentChars raw.toList)

/-- The comments of one declaration as one, if any of them says something. -/
def joinComments (comments : List String) : Option String :=
  match comments.filter (!·.isEmpty) with
  | [] => none
  | texts => some (String.ofList (joinWithSpaces (texts.map String.toList)))

end SchemaGen.Document
