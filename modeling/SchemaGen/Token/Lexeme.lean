import SchemaGen.Text.Blank
import SchemaGen.Text.Word
import SchemaGen.Token

/-!
# Lexemes

A lexeme is a piece of text that makes one token, or a run of blanks. Each class has a function that
measures the lexeme of that class at the front of a text; `lexemeLength?` takes the first class that
has one. No lexeme is empty, so a text can be cut into lexemes from the front.
-/

namespace SchemaGen.Token

open Text (isBlank isDigit isWord)

/-! ## Comments and strings -/

/-- The length of what ends a block comment, through its first `*/`. -/
def blockEnd? : List Char → Option Nat
  | [] => none
  | c :: cs => if c = '*' ∧ cs.head? = some '/' then some 2 else (blockEnd? cs).map (· + 1)

/-- A comment from `/*` through the first `*/` behind it, over line ends if need be. -/
def blockCommentLength? : List Char → Option Nat
  | c :: d :: cs => if c = '/' ∧ d = '*' then (blockEnd? cs).map (· + 2) else none
  | _ => none

/-- A comment from `//` to the end of the line. -/
def lineCommentLength? : List Char → Option Nat
  | c :: d :: cs =>
    if c = '/' ∧ d = '/' then some (2 + (cs.takeWhile (· ≠ '\n')).length) else none
  | _ => none

/-- The length of what ends a string, through its closing quote. A backslash takes the character
behind it along, be it a quote or a newline; a bare newline ends no string. -/
def stringEnd? : List Char → Option Nat
  | [] => none
  | [c] => if c = '"' then some 1 else none
  | c :: d :: cs =>
    if c = '"' then some 1
    else if c = '\n' then none
    else if c = '\\' then (stringEnd? cs).map (· + 2)
    else (stringEnd? (d :: cs)).map (· + 1)

/-- A string in double quotes. -/
def stringLength? : List Char → Option Nat
  | c :: cs => if c = '"' then (stringEnd? cs).map (· + 1) else none
  | [] => none

/-! ## Integers -/

/-- A run of digits that ends at a word boundary. -/
def digitsLength? (cs : List Char) : Option Nat :=
  let n := (cs.takeWhile isDigit).length
  if n = 0 then none
  else if (cs.drop n).head?.any isWord then none
  else some n

/-- Digits with or without a minus sign. -/
def integerLength? : List Char → Option Nat
  | c :: cs => if c = '-' then (digitsLength? cs).map (· + 1) else digitsLength? (c :: cs)
  | [] => none

/-! ## Names -/

/-- Whether a name can start with `c`: an ASCII letter or an underscore. -/
def isNameStart (c : Char) : Bool :=
  c.isAlpha || c = '_'

/-- Whether `c` can stand inside a name: an ASCII letter, an ASCII digit or an underscore. -/
def isNameChar (c : Char) : Bool :=
  c.isAlphanum || c = '_'

/-- How far a dotted name goes on. A dot belongs to the name only before the start of a name. -/
def nameTail : List Char → Nat
  | [] => 0
  | c :: cs =>
    if isNameChar c then 1 + nameTail cs
    else if c = '.' ∧ cs.head?.any isNameStart then 1 + nameTail cs
    else 0

/-- A dotted name, with or without a leading dot. -/
def nameLength? : List Char → Option Nat
  | c :: cs =>
    if isNameStart c ∨ (c = '.' ∧ cs.head?.any isNameStart) then some (1 + nameTail cs) else none
  | [] => none

/-! ## Symbols and blanks -/

/-- Whether `c` is a symbol by itself. -/
def isSymbol (c : Char) : Bool :=
  c ∈ ['=', ';', '\x7b', '\x7d', '[', ']', '<', '>', ',']

/-- One symbol. -/
def symbolLength? : List Char → Option Nat
  | c :: _ => if isSymbol c then some 1 else none
  | [] => none

/-- A run of blanks. -/
def blanksLength? (cs : List Char) : Option Nat :=
  let n := (cs.takeWhile isBlank).length
  if n = 0 then none else some n

/-! ## The lexeme at the front of a text -/

/-- The length of the lexeme at the front of `cs`. Where several classes have one, the class named
first decides, not the longest lexeme. -/
def lexemeLength? (cs : List Char) : Option Nat :=
  blockCommentLength? cs <|> lineCommentLength? cs <|> stringLength? cs <|> integerLength? cs <|>
    nameLength? cs <|> symbolLength? cs <|> blanksLength? cs

@[simp]
theorem lexemeLength?_nil : lexemeLength? [] = none := rfl

theorem digitsLength?_pos {cs : List Char} {n : Nat} (h : digitsLength? cs = some n) : 0 < n := by
  grind [digitsLength?]

theorem lexemeLength?_pos {cs : List Char} {n : Nat} (h : lexemeLength? cs = some n) : 0 < n := by
  simp only [lexemeLength?, Option.orElse_eq_orElse, Option.orElse_eq_or,
    Option.or_eq_some_iff] at h
  rcases h with h | ⟨-, h | ⟨-, h | ⟨-, h | ⟨-, h | ⟨-, h | ⟨-, h⟩⟩⟩⟩⟩⟩
  · unfold blockCommentLength? at h
    split at h <;> grind [Option.map_eq_some_iff]
  · unfold lineCommentLength? at h
    split at h <;> grind [Option.map_eq_some_iff]
  · unfold stringLength? at h
    split at h <;> grind [Option.map_eq_some_iff]
  · unfold integerLength? at h
    split at h <;> grind [Option.map_eq_some_iff, → digitsLength?_pos]
  · unfold nameLength? at h
    split at h <;> grind [Option.map_eq_some_iff]
  · unfold symbolLength? at h
    split at h <;> grind [Option.map_eq_some_iff]
  · grind [blanksLength?]

/-- What a lexeme that is no run of blanks is, by its first characters. A run of digits beyond ASCII
counts as a symbol. -/
def kindOf : List Char → TokenKind
  | [] => .symbol
  | c :: cs =>
    if c = '/' ∧ (cs.head? = some '/' ∨ cs.head? = some '*') then .comment
    else if c = '"' then .string
    else if c = '-' ∨ c.isDigit then .integer
    else if c = '.' ∨ isNameStart c then .identifier
    else .symbol

end SchemaGen.Token
