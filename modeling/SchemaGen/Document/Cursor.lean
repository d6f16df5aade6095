import SchemaGen.SyntaxError
import SchemaGen.Token

/-!
# Reading tokens one by one

A cursor stands between the tokens of a text. It never leaves the text: behind the last token it
keeps showing that token. A loop that waits for another token there would not end, which is an
outcome of its own, `ParseError.endless`. Tokens of a text end with a mark that stops every loop.
-/

namespace SchemaGen.Document

/-- A place between the tokens of a text. -/
structure Cursor where
  /-- The tokens behind the place. -/
  ahead : List Token
  /-- The last token of the text. -/
  last : Token
  /-- The line of the token just before the place, and zero if there is none. -/
  line : Nat
deriving DecidableEq, Repr

namespace Cursor

/-- The token that the cursor shows. -/
def current (c : Cursor) : Token :=
  c.ahead.headD c.last

/-- The cursor one token on. -/
def next (c : Cursor) : Cursor :=
  { c with
    ahead := c.ahead.tail
    line := (c.ahead.head?.map (·.position.line)).getD 0 }

/-- The cursor behind the tokens `tokens` that it stands in front of. -/
def skip (c : Cursor) (tokens : List Token) : Cursor :=
  tokens.foldl (fun c _ => c.next) c

end Cursor

/-- Why tokens cannot be read as a document. -/
inductive ParseError where
  | fault (error : SyntaxError)
  | endless
deriving DecidableEq, Repr

/-- Reads something at a cursor and moves the cursor behind it. -/
abbrev Parser := StateT Cursor (Except ParseError)

/-- Fails for `cause` at the token `t`. -/
def failAt {α : Type} (t : Token) (cause : SyntaxCause) : Parser α :=
  throw (.fault ⟨cause, t.position⟩)

/-- The token at the cursor, which stays. -/
def peek : Parser Token :=
  return (← get).current

/-- Fails because `what` does not stand at the cursor. -/
def unexpected {α : Type} (what : Expected) : Parser α := do
  let t ← peek
  failAt t (.expected what (if t.kind = .endOfFile then none else some t.text))

/-- Passes over the keyword or symbol `text` if it stands at the cursor. -/
def eat (text : String) : Parser Bool := do
  if (← peek).is text then
    modify Cursor.next
    return true
  else return false

/-- Passes over the keyword or symbol `text`, which must stand at the cursor. -/
def expect (text : String) : Parser Unit := do
  if !(← eat text) then unexpected (.text text)

/-- Reads a token of kind `kind`, which a message calls `what`. -/
def token (kind : TokenKind) (what : Expected) : Parser Token := do
  let t ← peek
  if t.kind = kind then
    modify Cursor.next
    return t
  else unexpected what

/-- Reads what `item` reads, again and again, until it reads nothing. An item that leaves the cursor
where it is would be read forever. -/
def collect {α : Type} (item : Parser (Option α)) (c : Cursor) :
    Except ParseError (List α × Cursor) :=
  match item c with
  | .error e => .error e
  | .ok (none, next) => .ok ([], next)
  | .ok (some a, next) =>
    if next.ahead.length < c.ahead.length then
      match collect item next with
      | .error e => .error e
      | .ok (rest, fin) => .ok (a :: rest, fin)
    else .error .endless
termination_by c.ahead.length

end SchemaGen.Document
