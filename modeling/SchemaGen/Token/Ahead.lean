import SchemaGen.Token.Lexeme

/-!
# Where lexemes start

Whether a lexeme starts at a place can depend on text far ahead: a comment or a string must end
there, and a run of digits must not run into a word. `Ahead` holds what has to be known of the text
ahead, and it is found from the end of the text to its front, one character at a time. So all places
where a lexeme starts are found in one pass.
-/

namespace SchemaGen.Token

open Text (isBlank isDigit isWord)

/-- What the text ahead of a place has. -/
structure Ahead where
  /-- The end of a block comment. -/
  blockEnd : Bool
  /-- The end of a block comment behind the next character. -/
  nextBlockEnd : Bool
  /-- The end of a string. -/
  stringEnd : Bool
  /-- The end of a string behind the next character. -/
  nextStringEnd : Bool
  /-- A run of digits that ends at a word boundary. -/
  digits : Bool
deriving DecidableEq, Repr

namespace Ahead

/-- What an empty text has. -/
def nothing : Ahead := ⟨false, false, false, false, false⟩

/-- What `c :: cs` has if `cs` has `a`. -/
def before (a : Ahead) (c : Char) (cs : List Char) : Ahead where
  blockEnd := c = '*' && cs.head? = some '/' || a.blockEnd
  nextBlockEnd := a.blockEnd
  stringEnd := c = '"' || c ≠ '\n' && (if c = '\\' then a.nextStringEnd else a.stringEnd)
  nextStringEnd := a.stringEnd
  digits := isDigit c && (if cs.head?.any isDigit then a.digits else !cs.head?.any isWord)

/-- What a text has. -/
def ofText : List Char → Ahead
  | [] => nothing
  | c :: cs => (ofText cs).before c cs

/-- Whether a lexeme starts at `c` if the text `cs` behind it has `a`. -/
def startsLexeme (a : Ahead) (c : Char) (cs : List Char) : Bool :=
  c = '/' && (cs.head? = some '*' && a.nextBlockEnd || cs.head? = some '/') ||
    c = '"' && a.stringEnd ||
    (if c = '-' then a.digits else (a.before c cs).digits) ||
    isNameStart c || c = '.' && cs.head?.any isNameStart || isSymbol c || isBlank c

/-! ## What the parts of `Ahead` mean -/

theorem blockEnd_ofText (cs : List Char) : (ofText cs).blockEnd = (blockEnd? cs).isSome := by
  induction cs with
  | nil => rfl
  | cons c cs ih => grind [ofText, before, blockEnd?]

theorem nextBlockEnd_ofText (cs : List Char) :
    (ofText cs).nextBlockEnd = (blockEnd? cs.tail).isSome := by
  cases cs with
  | nil => rfl
  | cons c cs => exact blockEnd_ofText cs

theorem stringEnd_ofText (cs : List Char) : (ofText cs).stringEnd = (stringEnd? cs).isSome := by
  fun_induction stringEnd? cs <;> simp_all [ofText, before, nothing]

theorem digits_ofText (cs : List Char) : (ofText cs).digits = (digitsLength? cs).isSome := by
  induction cs with
  | nil => rfl
  | cons c cs ih =>
    cases cs with
    | nil => by_cases hc : isDigit c <;> simp [ofText, before, digitsLength?, hc]
    | cons d cs =>
      by_cases hc : isDigit c <;> by_cases hd : isDigit d <;>
        simp_all [ofText, before, digitsLength?] <;> grind

theorem startsLexeme_ofText (c : Char) (cs : List Char) :
    (ofText cs).startsLexeme c cs = (lexemeLength? (c :: cs)).isSome := by
  have hdigits : ((ofText cs).before c cs).digits = (digitsLength? (c :: cs)).isSome :=
    digits_ofText (c :: cs)
  have hblock : (blockCommentLength? (c :: cs)).isSome =
      (c = '/' && cs.head? = some '*' && (blockEnd? cs.tail).isSome) := by
    cases cs <;> grind [blockCommentLength?]
  have hline : (lineCommentLength? (c :: cs)).isSome = (c = '/' && cs.head? = some '/') := by
    cases cs <;> grind [lineCommentLength?]
  have hblanks : (blanksLength? (c :: cs)).isSome = isBlank c := by
    by_cases hc : isBlank c <;> simp [blanksLength?, hc]
  rw [startsLexeme, hdigits, nextBlockEnd_ofText, stringEnd_ofText, digits_ofText]
  simp only [lexemeLength?, Option.orElse_eq_orElse, Option.orElse_eq_or, Option.isSome_or, hblock,
    hline, hblanks]
  grind [stringLength?, integerLength?, nameLength?, symbolLength?]

end Ahead

end SchemaGen.Token
