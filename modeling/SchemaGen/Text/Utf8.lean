import SchemaGen.Text.Position

/-!
# Bytes as text

Bytes are read as UTF-8 character by character. Reading stops at the first byte that starts no
character, and the bytes before it tell where the fault is. To show bytes that may be no text, every
broken character is replaced by a mark and reading goes on behind it.
-/

namespace SchemaGen.Text

/-- The characters from byte `i` on, and the byte at which reading them stops. -/
def charsFrom (bytes : ByteArray) (i : Nat) : List Char × Nat :=
  if i < bytes.size then
    match bytes.utf8DecodeChar? i with
    | some c =>
      let (cs, stop) := charsFrom bytes (i + c.utf8Size)
      (c :: cs, stop)
    | none => ([], i)
  else ([], i)
termination_by bytes.size - i
decreasing_by
  have := c.utf8Size_pos
  omega

/-- The text that `bytes` encode, or how many of them the longest text at their start takes up if
they encode none. -/
def ofBytes (bytes : ByteArray) : Except Nat String :=
  let (cs, stop) := charsFrom bytes 0
  if stop = bytes.size then .ok (String.ofList cs) else .error stop

/-- Whether `second` can follow `first` in the encoding of a character that takes three or four
bytes. The byte behind some leading bytes is bounded further, so that each character is encoded in
one way only and no surrogate is. -/
def canFollow (first second : UInt8) : Bool :=
  if first = 0xE0 then 0xA0 ≤ second && second ≤ 0xBF
  else if first = 0xED then 0x80 ≤ second && second ≤ 0x9F
  else if first = 0xF0 then 0x90 ≤ second && second ≤ 0xBF
  else if first = 0xF4 then 0x80 ≤ second && second ≤ 0x8F
  else 0xE1 ≤ first && first ≤ 0xF3 && 0x80 ≤ second && second ≤ 0xBF

/-- How many bytes from `i` on belong to one broken character: the longest start of an encoding, and
at least one byte. -/
def brokenSize (bytes : ByteArray) (i : Nat) : Nat :=
  match bytes[i]?, bytes[i + 1]?, bytes[i + 2]? with
  | some first, some second, third =>
    if canFollow first second then
      match third with
      | some third => if 0xF0 ≤ first && 0x80 ≤ third && third ≤ 0xBF then 3 else 2
      | none => 2
    else 1
  | _, _, _ => 1

/-- The mark for a broken character. -/
def replacement : Char := '\uFFFD'

theorem brokenSize_pos (bytes : ByteArray) (i : Nat) : 0 < brokenSize bytes i := by
  grind [brokenSize]

/-- The characters from byte `i` on, with marks for the broken ones. -/
def shownFrom (bytes : ByteArray) (i : Nat) : List Char :=
  if i < bytes.size then
    match bytes.utf8DecodeChar? i with
    | some c => c :: shownFrom bytes (i + c.utf8Size)
    | none => replacement :: shownFrom bytes (i + brokenSize bytes i)
  else []
termination_by bytes.size - i
decreasing_by
  · have := c.utf8Size_pos
    omega
  · have := brokenSize_pos bytes i
    omega

/-- The text that `bytes` encode, with marks where they encode none. -/
def shown (bytes : ByteArray) : String :=
  String.ofList (shownFrom bytes 0)

/-- The position behind the text that `bytes` encode, counted in the bytes: those that are newlines,
and the characters of those behind the last newline. -/
def Position.inBytes (bytes : List UInt8) : Position where
  line := 1 + bytes.count 0x0A
  column := 1 + (shown (bytes.reverse.takeWhile (· ≠ 0x0A)).reverse.toByteArray).length

end SchemaGen.Text
