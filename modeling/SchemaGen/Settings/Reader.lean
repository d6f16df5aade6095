import SchemaGen.Decimal.Shortest
import SchemaGen.Settings
import SchemaGen.Settings.Fault

/-!
# Reading settings

A settings file is an object with some of the fields, each at most once, or a list of the fields'
values in their order, with the last ones left out. Reading stops at the first fault of the text: a
value is checked as soon as it is read, and a key before its value is.
-/

namespace SchemaGen.Settings

/-- Reads something from the start of a text and leaves the rest. -/
abbrev Reader := StateT (List Char) (Except Fault)

/-! ## Characters -/

/-- The next character behind blanks. -/
def peek : Reader (Option Char) := do
  let rest := (← get).dropWhile Text.isJsonBlank
  set rest
  return rest.head?

/-- Passes over one character. -/
def skipChar : Reader Unit :=
  modify List.tail

/-- Passes over the rest of a word whose first character has been read. -/
def word : List Char → Reader Unit
  | [] => return
  | c :: cs => do
    match ← get with
    | [] => throw .endInValue
    | d :: rest =>
      set rest
      if d = c then word cs else throw .noWord

/-- Reads a string behind its opening quote. -/
def textBody : Reader String := do
  match Text.readBody (← get) with
  | .ok (body, rest) =>
    set rest
    return String.ofList body
  | .error e => throw (.literal e)

/-! ## Numbers -/

/-- Adds digits to a number as long as it fits into 64 bits; gives back the digits left over. -/
def absorb (n : Nat) : List Char → Nat × List Char
  | [] => (n, [])
  | c :: cs =>
    let more := n * 10 + (c.toNat - '0'.toNat)
    if more < Nat.pow 2 64 then absorb more cs else (n, c :: cs)

/-- The digits at the start of the text. -/
def digits : Reader (List Char) := do
  let text ← get
  set (text.dropWhile Char.isDigit)
  return text.takeWhile Char.isDigit

/-- `f * 10 ^ e`, or nothing if this is too large. -/
def scale? (f : Float) (e : Int) : Option Float :=
  if e < -308 then
    if f == 0 then some f else scale? (f / 1e308) (e + 308)
  else if e ≤ 308 then
    let scaled := if 0 ≤ e then f * Float.ofScientific 1 false e.toNat
      else f / Float.ofScientific 1 false (-e).toNat
    if scaled.isInf then none else some scaled
  else if f == 0 then some f else none
termination_by (-e).toNat

/-- The number `significand * 10 ^ e` with its sign, as a value. -/
def scaled (isNegative : Bool) (significand : Nat) (e : Int) : Reader Found :=
  match scale? (Float.ofNat significand) e with
  | some f => return .float (floatText (if isNegative then -f else f))
  | none => throw .hugeNumber

/-- The largest exponent that is told from an even larger one. -/
def maxExponent : Nat := 2147483647

/-- Reads an exponent behind its letter; `e` is the exponent without it. -/
def exponentPart (isNegative : Bool) (significand : Nat) (e : Int) : Reader Found := do
  let isDown ← do
    match ← get with
    | '-' :: rest => set rest; pure true
    | '+' :: rest => set rest; pure false
    | _ => pure false
  if (← get).isEmpty then throw .endInValue
  let ds ← digits
  if ds.isEmpty then throw .badNumber
  let size := ds.foldl (fun n c => n * 10 + (c.toNat - '0'.toNat)) 0
  if maxExponent < size then
    if significand ≠ 0 ∧ !isDown then throw .hugeNumber
    return .float (if isNegative then "-0.0" else "0.0")
  scaled isNegative significand (if isDown then e - size else e + size)

/-- Reads what follows the digits before the point. -/
def fractionPart (isNegative : Bool) (significand : Nat) (e : Int) : Reader Found := do
  match ← get with
  | '.' :: rest =>
    set rest
    if rest.isEmpty then throw .endInValue
    let ds ← digits
    if ds.isEmpty then throw .badNumber
    let (significand, dropped) := absorb significand ds
    let e := e - (ds.length - dropped.length : Nat)
    match ← get with
    | 'e' :: rest | 'E' :: rest =>
      set rest
      exponentPart isNegative significand e
    | _ => scaled isNegative significand e
  | 'e' :: rest | 'E' :: rest =>
    set rest
    exponentPart isNegative significand e
  | _ => scaled isNegative significand e

/-- Whether a fraction or an exponent follows. -/
def isFractional : Reader Bool :=
  return match ← get with
    | c :: _ => c = '.' || c = 'e' || c = 'E'
    | [] => false

/-- Reads a number behind its sign. -/
def number (isNegative : Bool) : Reader Found := do
  if (← get).isEmpty then throw .endInValue
  let ds ← digits
  if ds.isEmpty ∨ (ds.head? = some '0' ∧ 1 < ds.length) then throw .badNumber
  let (significand, dropped) := absorb 0 ds
  if (← isFractional) || !dropped.isEmpty then
    fractionPart isNegative significand dropped.length
  else if !isNegative then return .integer significand
  else if 0 < significand ∧ significand ≤ Nat.pow 2 63 then return .integer (-significand)
  else scaled isNegative significand 0

/-! ## Values -/

/-- Reads the start of a value that is not of the needed type, as far as a message names it. -/
def mismatch {α : Type} (needed : Needed) (c : Char) : Reader α := do
  let found ←
    if c = 'n' then do skipChar; word ['u', 'l', 'l']; pure Found.null
    else if c = 't' then do skipChar; word ['r', 'u', 'e']; pure (.bool true)
    else if c = 'f' then do skipChar; word ['a', 'l', 's', 'e']; pure (.bool false)
    else if c = '-' then do skipChar; number true
    else if c.isDigit then number false
    else if c = '"' then do skipChar; .text <$> textBody
    else if c = '[' then pure .list
    else if c = '{' then pure .object
    else throw .noValue
  throw (.wrongType found needed)

/-- Reads a string. -/
def text (needed : Needed) : Reader String := do
  match ← peek with
  | none => throw .endInValue
  | some c =>
    if c = '"' then
      skipChar
      textBody
    else mismatch needed c

/-- Reads a string or `null`. -/
def optionalText : Reader (Option String) := do
  if (← peek) = some 'n' then
    skipChar
    word ['u', 'l', 'l']
    return none
  else some <$> text .text

/-- Whether another item of a list follows. `isFirst` says that none has been read yet. -/
def hasItem (isFirst : Bool) : Reader Bool := do
  match ← peek with
  | none => throw .endInList
  | some c =>
    if c = ']' then return false
    else if isFirst then return true
    else if c = ',' then
      skipChar
      match ← peek with
      | none => throw .endInValue
      | some d => if d = ']' then throw .trailingComma else return true
    else throw .noCommaOrBracket

/-- Passes over the end of a list. -/
def closeList : Reader Unit := do
  match ← peek with
  | none => throw .endInList
  | some c =>
    if c = ']' then skipChar
    else if c = ',' then
      skipChar
      if (← peek) = some ']' then throw .trailingComma else throw .trailingText
    else throw .trailingText

/-- Reads the strings of a list, at most `n` of them. -/
def texts : (n : Nat) → (isFirst : Bool) → Reader (List String)
  | 0, _ => return []
  | n + 1, isFirst => do
    if ← hasItem isFirst then
      let item ← text .text
      return item :: (← texts n false)
    else return []

/-- Reads a list of strings. No list has more items than the text has characters. -/
def textList : Reader (List String) := do
  match ← peek with
  | none => throw .endInValue
  | some c =>
    if c = '[' then
      skipChar
      let items ← texts (← get).length true
      closeList
      return items
    else mismatch .list c

/-- Reads the value of a field. -/
def value (s : Settings) : Key → Reader Settings
  | .skip => return { s with skip := ← textList }
  | .outDir => return { s with outDir := ⟨← text .path⟩ }
  | .fileExt => return { s with fileExt := ← optionalText }
  | .tool => return { s with tool := ← text .text }
  | .schemaExt => return { s with schemaExt := ← text .text }

/-! ## Settings -/

/-- Reads the values of `keys` as items of a list that may end early. -/
def listed (s : Settings) (isFirst : Bool) : List Key → Reader Settings
  | [] => return s
  | key :: keys => do
    if ← hasItem isFirst then listed (← value s key) false keys else return s

/-- Whether another field of an object follows. -/
def hasField (isFirst : Bool) : Reader Bool := do
  match ← peek with
  | none => throw .endInObject
  | some c =>
    if c = '}' then return false
    else if isFirst then
      if c = '"' then return true else throw .keyNotText
    else if c = ',' then
      skipChar
      match ← peek with
      | none => throw .endInValue
      | some d =>
        if d = '"' then return true
        else if d = '}' then throw .trailingComma
        else throw .keyNotText
    else throw .noCommaOrBrace

/-- Reads a key that is none of `seen`. -/
def fieldKey (seen : List Key) : Reader Key := do
  skipChar
  let name ← textBody
  match Key.ofName? name with
  | none => throw (.unknownField name)
  | some key => if seen.contains key then throw (.repeatedField key) else return key

/-- Passes over the colon behind a key. -/
def colon : Reader Unit := do
  match ← peek with
  | none => throw .endInObject
  | some c => if c = ':' then skipChar else throw .noColon

/-- Reads the fields of an object and its end, at most `n` fields; `seen` are those read before. -/
def fields : (n : Nat) → Settings → (seen : List Key) → Reader Settings
  | 0, s, _ => return s
  | n + 1, s, seen => do
    if ← hasField seen.isEmpty then
      let key ← fieldKey seen
      colon
      fields n (← value s key) (key :: seen)
    else
      skipChar
      return s

/-- Reads settings; the object ends or fails before a field is read a second time. -/
def settings : Reader Settings := do
  match ← peek with
  | none => throw .endInValue
  | some c =>
    if c = '[' then
      skipChar
      let s ← listed .default true Key.all
      closeList
      return s
    else if c = '{' then
      skipChar
      fields (Key.all.length + 1) .default []
    else mismatch .settings c

/-- The settings that a text holds. -/
def ofText (source : String) : Except Fault Settings :=
  match settings.run source.toList with
  | .error e => .error e
  | .ok (s, rest) => if rest.all Text.isJsonBlank then .ok s else .error .trailingText

end SchemaGen.Settings
