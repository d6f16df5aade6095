import SchemaGen.Text.Split

/-!
# String literals

A string literal stands in double quotes, in the notation of JSON. `quote` writes a text with the
fewest escapes; `readBody` reads a literal strictly and says why it refuses one: raw control
characters, unknown escapes and unpaired surrogates are errors. `unquote` takes a literal by its
contents when it can be read and by its bare characters when it cannot.
-/

namespace SchemaGen.Text

/-! ## Writing -/

/-- The digit of `n < 16` in base sixteen, as a small letter from ten on. -/
def hexDigit (n : Nat) : Char :=
  if n < 10 then Char.ofNat ('0'.toNat + n) else Char.ofNat ('a'.toNat + (n - 10))

/-- How one character is written inside a literal. -/
def escapeChar (c : Char) : List Char :=
  if c = '"' then ['\\', '"']
  else if c = '\\' then ['\\', '\\']
  else if c = '\x08' then ['\\', 'b']
  else if c = '\x0c' then ['\\', 'f']
  else if c = '\n' then ['\\', 'n']
  else if c = '\r' then ['\\', 'r']
  else if c = '\t' then ['\\', 't']
  else if c.toNat < 0x20 then
    ['\\', 'u', '0', '0', hexDigit (c.toNat / 16), hexDigit (c.toNat % 16)]
  else [c]

/-- The literal for the characters `cs`. -/
def quoteChars (cs : List Char) : List Char :=
  '"' :: cs.flatMap escapeChar ++ ['"']

/-- The literal for `s`. -/
def quote (s : String) : String :=
  String.ofList (quoteChars s.toList)

/-! ## Reading -/

/-- Why a literal cannot be read. -/
inductive LiteralError where
  /-- The text ends before the closing quote. -/
  | unterminated
  /-- A character below the space stands unescaped. -/
  | controlCharacter
  /-- A backslash is followed by no known escape. -/
  | invalidEscape
  /-- A leading surrogate is not followed by another escape. -/
  | unfinishedPair
  /-- A surrogate stands without its partner. -/
  | loneSurrogate
deriving DecidableEq, Repr

/-- The value of a digit in base sixteen, in small or capital letters. -/
def hexValue? (c : Char) : Option Nat :=
  if '0' ≤ c ∧ c ≤ '9' then some (c.toNat - '0'.toNat)
  else if 'a' ≤ c ∧ c ≤ 'f' then some (c.toNat - 'a'.toNat + 10)
  else if 'A' ≤ c ∧ c ≤ 'F' then some (c.toNat - 'A'.toNat + 10)
  else none

/-- The number of bytes that encode `cs`. -/
def byteLength (cs : List Char) : Nat :=
  (cs.map Char.utf8Size).foldr (· + ·) 0

/-- Reads four hexadecimal digits. They take four bytes, so a text with fewer bytes left ends inside
the escape, whatever its characters are. -/
def readUnit (cs : List Char) : Except LiteralError (Nat × List Char) :=
  match cs with
  | a :: b :: c :: d :: rest =>
    match hexValue? a, hexValue? b, hexValue? c, hexValue? d with
    | some a, some b, some c, some d => .ok (((a * 16 + b) * 16 + c) * 16 + d, rest)
    | _, _, _, _ => .error .invalidEscape
  | short => if byteLength short < 4 then .error .unterminated else .error .invalidEscape

/-- Reads the trailing half of a surrogate pair whose leading half is `high`. -/
def readTrailing (high : Nat) (cs : List Char) : Except LiteralError (Char × List Char) :=
  match cs with
  | [] => .error .unterminated
  | c :: cs =>
    if c = '\\' then
      match cs with
      | [] => .error .unterminated
      | d :: cs =>
        if d = 'u' then
          match readUnit cs with
          | .error e => .error e
          | .ok (low, rest) =>
            if 0xDC00 ≤ low ∧ low ≤ 0xDFFF then
              .ok (Char.ofNat (0x10000 + (high - 0xD800) * 0x400 + (low - 0xDC00)), rest)
            else .error .loneSurrogate
        else .error .unfinishedPair
    else .error .unfinishedPair

/-- The character that a backslash and `c` stand for, if `c` is a one-letter escape. -/
def shortEscape? (c : Char) : Option Char :=
  if c = '"' ∨ c = '\\' ∨ c = '/' then some c
  else if c = 'b' then some '\x08'
  else if c = 'f' then some '\x0c'
  else if c = 'n' then some '\n'
  else if c = 'r' then some '\r'
  else if c = 't' then some '\t'
  else none

/-- Reads the escape behind a backslash. -/
def readEscape (cs : List Char) : Except LiteralError (Char × List Char) :=
  match cs with
  | [] => .error .unterminated
  | c :: rest =>
    if c = 'u' then
      match readUnit rest with
      | .error e => .error e
      | .ok (unit, next) =>
        if 0xDC00 ≤ unit ∧ unit ≤ 0xDFFF then .error .loneSurrogate
        else if 0xD800 ≤ unit ∧ unit ≤ 0xDBFF then readTrailing unit next
        else .ok (Char.ofNat unit, next)
    else
      match shortEscape? c with
      | some d => .ok (d, rest)
      | none => .error .invalidEscape

theorem length_of_readUnit {cs rest : List Char} {n : Nat} (h : readUnit cs = .ok (n, rest)) :
    rest.length < cs.length := by
  unfold readUnit at h
  split at h
  · split at h
    · cases h
      simp only [List.length_cons]
      omega
    · cases h
  · split at h <;> cases h

theorem length_of_readTrailing {high : Nat} {cs rest : List Char} {c : Char}
    (h : readTrailing high cs = .ok (c, rest)) : rest.length < cs.length := by
  simp only [readTrailing] at h
  repeat' split at h
  all_goals simp only [Except.ok.injEq, Prod.mk.injEq, reduceCtorEq] at h
  next hu _ =>
    obtain ⟨-, rfl⟩ := h
    have := length_of_readUnit hu
    simp only [List.length_cons]
    omega

theorem length_of_readEscape {cs rest : List Char} {c : Char}
    (h : readEscape cs = .ok (c, rest)) : rest.length < cs.length := by
  simp only [readEscape] at h
  repeat' split at h
  case h_2.isFalse.isTrue hu _ _ =>
    have := length_of_readUnit hu
    have := length_of_readTrailing h
    simp only [List.length_cons]
    omega
  all_goals simp only [Except.ok.injEq, Prod.mk.injEq, reduceCtorEq] at h
  all_goals obtain ⟨-, rfl⟩ := h
  · next hu _ _ =>
    have := length_of_readUnit hu
    simp only [List.length_cons]
    omega
  · simp

/-- Reads a literal behind its opening quote: its contents, and what follows the closing quote. -/
def readBody (cs : List Char) : Except LiteralError (List Char × List Char) :=
  match cs with
  | [] => .error .unterminated
  | c :: rest =>
    if c = '"' then .ok ([], rest)
    else if c = '\\' then
      match _h : readEscape rest with
      | .error e => .error e
      | .ok (d, next) =>
        match readBody next with
        | .error e => .error e
        | .ok (body, tail) => .ok (d :: body, tail)
    else if c.toNat < 0x20 then .error .controlCharacter
    else
      match readBody rest with
      | .error e => .error e
      | .ok (body, tail) => .ok (c :: body, tail)
termination_by cs.length
decreasing_by
  · have := length_of_readEscape _h
    simp only [List.length_cons]
    omega
  · simp

/-- Whether `c` is a blank of the JSON notation. -/
def isJsonBlank (c : Char) : Bool :=
  c = ' ' || c = '\n' || c = '\t' || c = '\r'

/-- The contents of a text that is one literal with blanks around it. -/
def readLiteral? (cs : List Char) : Option (List Char) :=
  match cs.dropWhile isJsonBlank with
  | '"' :: rest =>
    match readBody rest with
    | .ok (body, tail) => if tail.all isJsonBlank then some body else none
    | .error _ => none
  | _ => none

/-- What a string literal stands for: its contents, or its characters between the quotes when it is
no proper literal. -/
def unquote (s : String) : String :=
  match readLiteral? s.toList with
  | some body => String.ofList body
  | none => String.ofList (trimWhile (· = '"') s.toList)

end SchemaGen.Text
