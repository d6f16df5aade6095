import SchemaGen.Text.Split

/-!
# Skip lists

A skip pattern is a text in which each star stands for any run of characters other than a slash. It
matches a path that starts with such a text. Each literal piece is taken at its first possible
place: a later place leaves no more of the path to match, and the star behind it can pass over what
lies between.
-/

namespace SchemaGen

/-- What compiled patterns take up, in bytes: a fixed part, each star with the states that tell apart
all characters but one, and each byte of a literal piece. No pattern may take up more than the
limit. -/
structure PatternCosts where
  fixed : Nat
  star : Nat
  byte : Nat
  limit : Nat

/-- The costs of the patterns in settings. -/
def PatternCosts.usual : PatternCosts := ⟨176, 1040, 32, 10485760⟩

/-- A skip pattern, cut at its stars. -/
structure SkipPattern where
  pieces : List (List Char)
deriving DecidableEq, Repr

namespace SkipPattern

/-- What is left of a path behind the first place where `piece` stands, if only characters other
than slashes come before it. -/
def behindFirst? (piece : List Char) : List Char → Option (List Char)
  | [] => if piece.isEmpty then some [] else none
  | c :: cs =>
    if piece.isPrefixOf (c :: cs) then some ((c :: cs).drop piece.length)
    else if c = '/' then none
    else behindFirst? piece cs

/-- Whether the pattern matches the start of `path`. -/
def matchesChars (p : SkipPattern) (path : List Char) : Bool :=
  match p.pieces with
  | [] => true
  | first :: others =>
    if first.isPrefixOf path then
      (others.foldlM (fun rest piece => behindFirst? piece rest) (path.drop first.length)).isSome
    else false

/-- The size of a compiled pattern in bytes. -/
def compiledSize (costs : PatternCosts) (p : SkipPattern) : Nat :=
  costs.fixed + costs.star * (p.pieces.length - 1) +
    costs.byte * (p.pieces.flatten.map Char.utf8Size).foldr (· + ·) 0

/-- The pattern written `text`, unless it is too large to compile. -/
def ofText? (costs : PatternCosts) (text : String) : Option SkipPattern :=
  let pattern : SkipPattern := ⟨Text.split '*' text.toList⟩
  if pattern.compiledSize costs ≤ costs.limit then some pattern else none

end SkipPattern

/-- Patterns of paths to leave out. -/
structure SkipList where
  patterns : List SkipPattern
deriving DecidableEq, Repr

namespace SkipList

/-- The skip list that leaves out nothing. -/
def empty : SkipList := ⟨[]⟩

/-- The skip list of these patterns, or the first of them that is too large. -/
def ofTexts (costs : PatternCosts) (texts : List String) : Except String SkipList :=
  match texts with
  | [] => .ok empty
  | text :: others =>
    match SkipPattern.ofText? costs text, ofTexts costs others with
    | none, _ => .error text
    | some _, .error text => .error text
    | some pattern, .ok list => .ok ⟨pattern :: list.patterns⟩

/-- Whether there is no pattern. -/
def isEmpty (l : SkipList) : Bool :=
  l.patterns.isEmpty

/-- Whether some pattern matches `path`, which is relative to the schema root. -/
def skips (l : SkipList) (path : String) : Bool :=
  l.patterns.any fun p => p.matchesChars path.toList

end SkipList

end SchemaGen
