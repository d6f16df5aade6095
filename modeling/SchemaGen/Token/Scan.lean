import SchemaGen.SyntaxError
import SchemaGen.Token.Ahead

/-!
# Reading tokens

A text is cut into lexemes from the front, each as long as its class makes it. Blanks are dropped,
everything else becomes a token. Where no lexeme starts, the offending text goes on to the next
place where one does.
-/

namespace SchemaGen.Token

open Text (Position isBlank)

/-- The characters at the front of a text before the first place where a lexeme starts, and what the
text has. -/
def offendingAhead : List Char → List Char × Ahead
  | [] => ([], .nothing)
  | c :: cs =>
    let (rest, a) := offendingAhead cs
    (if a.startsLexeme c cs then [] else c :: rest, a.before c cs)

/-- The characters at the front of `cs` before the first place where a lexeme starts. -/
def offending (cs : List Char) : List Char :=
  (offendingAhead cs).1

theorem offendingAhead_snd (cs : List Char) : (offendingAhead cs).2 = .ofText cs := by
  induction cs with
  | nil => rfl
  | cons c cs ih => exact congrArg (·.before c cs) ih

@[simp]
theorem offending_nil : offending [] = [] := rfl

theorem offending_cons (c : Char) (cs : List Char) :
    offending (c :: cs) =
      if (lexemeLength? (c :: cs)).isSome then [] else c :: offending cs := by
  rw [← Ahead.startsLexeme_ofText, ← offendingAhead_snd]
  rfl

/-- The tokens of the text `cs` that starts at position `p`, with the end of the file last. -/
def scan (p : Position) (cs : List Char) : Except SyntaxError (List Token) :=
  match _h : lexemeLength? cs with
  | some n =>
    match scan (p.after (cs.take n)) (cs.drop n) with
    | .error e => .error e
    | .ok tokens =>
      if (cs.take n).all isBlank then .ok tokens
      else .ok (⟨kindOf (cs.take n), String.ofList (cs.take n), p⟩ :: tokens)
  | none =>
    if cs.isEmpty then .ok [⟨.endOfFile, "", p⟩]
    else .error ⟨.noToken (String.ofList (offending cs)), p⟩
termination_by cs.length
decreasing_by
  have hpos := lexemeLength?_pos _h
  cases cs with
  | nil => cases _h
  | cons c cs =>
    simp only [List.length_drop, List.length_cons]
    omega

/-- The tokens of a schema text. -/
def tokenize (text : String) : Except SyntaxError (List Token) :=
  scan .start text.toList

end SchemaGen.Token
