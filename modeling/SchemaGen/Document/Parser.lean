import SchemaGen.Document
import SchemaGen.Document.Comment
import SchemaGen.Document.Cursor
import SchemaGen.Text.Integer
import SchemaGen.Token.Scan

/-!
# Reading documents

The grammar of schema texts, read from tokens. Comments before a declaration, and one on the line
where its opening brace or its semicolon stands, become its comment. Keywords take precedence over
names. Options and reserved numbers in a body leave no trace, except that `ignore = true` marks the
definition or the field it stands in.
-/

namespace SchemaGen.Document

open Text (int32? unquote)

/-! ## Parts of statements -/

/-- Reads a name. -/
def identifier : Parser Token :=
  token .identifier .identifier

/-- Reads the contents of a string. -/
def stringValue : Parser String := do
  return unquote (← token .string .string).text

/-- Reads an integer of 32 bits. -/
def integerValue : Parser Int := do
  let t ← token .integer .integer
  match int32? t.text with
  | some n => return n
  | none => failAt t (.badInteger t.text)

/-- Reads the value of an option: a string by its contents, a name or an integer as written. -/
def optionValue : Parser String := do
  let t ← peek
  match t.kind with
  | .string =>
    modify Cursor.next
    return unquote t.text
  | .identifier | .integer =>
    modify Cursor.next
    return t.text
  | _ => unexpected .optionValue

/-- Reads `name = value`. -/
def setting : Parser (String × String) := do
  let name ← identifier
  expect "="
  return (name.text, ← optionValue)

/-- Whether a setting marks what it belongs to as ignored. -/
def marksIgnored (s : String × String) : Bool :=
  s.1 == "ignore" && s.2 == "true"

/-- Reads all comments at the cursor. -/
def comments : Parser (List String) := do
  let c ← get
  let found := c.ahead.takeWhile Token.isComment
  let next := c.skip found
  if next.current.isComment then throw .endless
  set next
  return found.map fun t => commentText t.text

/-- Reads a comment that starts on the line of the token just before the cursor. -/
def trailingComment : Parser (List String) := do
  let c ← get
  let t := c.current
  if t.isComment && t.position.line == c.line then
    set c.next
    return [commentText t.text]
  else return []

/-- Whether a token ends the statement around it, for want of a semicolon even the file. -/
def endsStatement (t : Token) : Bool :=
  t.is ";" || t.kind = .endOfFile

/-- Passes over everything through the next semicolon. -/
def skipStatement : Parser Unit := do
  let c ← get
  let next := c.skip (c.ahead.takeWhile fun t => !endsStatement t)
  if !endsStatement next.current then throw .endless
  set next
  expect ";"

/-- Reads a list of settings in brackets, if there is one, and says whether it marks the field as
ignored. -/
def fieldSettings : Parser Bool := do
  if !(← eat "[") then return false
  let first ← setting
  let others ← collect do
    if ← eat "," then return some (← setting) else return none
  expect "]"
  return (first :: others).any marksIgnored

/-! ## Members of definitions -/

/-- Reads the type of a field. -/
def fieldType (cardinality : Cardinality) : Parser TypeExpr := do
  if ← eat "map" then
    expect "<"
    let key ← identifier
    expect ","
    let value ← identifier
    expect ">"
    if cardinality = .repeated then failAt (← peek) .repeatedMap
    return .map key.text value.text
  else return .named (← identifier).text

/-- Reads the word before a field's type, if there is one. -/
def fieldCardinality : Parser Cardinality := do
  if ← eat "repeated" then return .repeated
  if ← eat "optional" then return .singular
  let _ ← eat "required"
  return .singular

/-- Reads `name = number [settings];` with the comment behind it. -/
def numbered (before : List String) : Parser ConstantDecl := do
  let name ← identifier
  expect "="
  let number ← integerValue
  let ignored ← fieldSettings
  expect ";"
  let behind ← trailingComment
  return {
    name := name.text
    comment := joinComments (before ++ behind)
    ignored
    number
    position := name.position }

/-- Reads a constant of an enumeration. -/
def constant (before : List String) : Parser ConstantDecl :=
  numbered before

/-- Reads a field of a message. -/
def field (before : List String) : Parser FieldDecl := do
  let cardinality ← fieldCardinality
  let type ← fieldType cardinality
  let rest ← numbered before
  return { rest.toDescribed with
    number := rest.number
    type
    cardinality
    position := rest.position }

/-! ## Definitions -/

/-- What stands in the body of a definition. -/
inductive Item (μ : Type) where
  | setting (marks : Bool)
  | reserved
  | member (m : μ)

/-- The keywords that would start a definition inside another. -/
def nestedKeywords : List String :=
  ["message", "enum", "oneof", "extensions", "extend", "group"]

/-- Reads the next item of a body, or its closing brace. -/
def bodyItem {μ : Type} (member : List String → Parser μ) : Parser (Option (Item μ)) := do
  let before ← comments
  if ← eat "\x7d" then return none
  if ← eat "option" then
    let s ← setting
    expect ";"
    return some (.setting (marksIgnored s))
  if ← eat "reserved" then
    skipStatement
    return some .reserved
  let t ← peek
  if nestedKeywords.any t.is then failAt t (.nested t.text)
  return some (.member (← member before))

/-- Whether an item marks its definition as ignored. -/
def Item.marks {μ : Type} : Item μ → Bool
  | .setting marks => marks
  | _ => false

/-- The member that an item is. -/
def Item.member? {μ : Type} : Item μ → Option μ
  | .member m => some m
  | _ => none

/-- Reads a definition behind its keyword. -/
def definition {μ : Type} (member : List String → Parser μ) (before : List String) :
    Parser (Declaration μ) := do
  let name ← identifier
  expect "\x7b"
  let behind ← trailingComment
  let items ← collect (bodyItem member)
  return {
    name := name.text
    comment := joinComments (before ++ behind)
    ignored := items.any Item.marks
    members := items.filterMap Item.member?
    position := name.position }

/-! ## Documents -/

/-- A statement of a schema text. -/
inductive Statement where
  | header (h : Header)
  | message (d : MessageDecl)
  | enumeration (d : EnumDecl)
deriving DecidableEq, Repr

/-- Reads the next statement, or the end of the file. -/
def statement : Parser (Option Statement) := do
  let before ← comments
  let t ← peek
  if t.kind = .endOfFile then return none
  if ← eat "syntax" then
    expect "="
    let value ← stringValue
    expect ";"
    return some (.header ⟨.level, "syntax", value⟩)
  if ← eat "package" then
    let name ← identifier
    expect ";"
    let value := String.ofList (name.text.toList.dropWhile (· = '.'))
    return some (.header ⟨.package, "package", value⟩)
  if ← eat "import" then
    if !(← eat "public") then
      let _ ← eat "weak"
    let path ← stringValue
    expect ";"
    return some (.header ⟨.importing, path, path⟩)
  if ← eat "option" then
    let (name, value) ← setting
    expect ";"
    return some (.header ⟨.option, name, value⟩)
  if ← eat "message" then return some (.message (← definition field before))
  if ← eat "enum" then return some (.enumeration (← definition constant before))
  failAt t (.unexpected t.text)

/-- The header that a statement is. -/
def Statement.header? : Statement → Option Header
  | header h => some h
  | _ => none

/-- The message that a statement is. -/
def Statement.message? : Statement → Option MessageDecl
  | message d => some d
  | _ => none

/-- The enumeration that a statement is. -/
def Statement.enumeration? : Statement → Option EnumDecl
  | enumeration d => some d
  | _ => none

/-- The document of these statements. -/
def ofStatements (statements : List Statement) : Document where
  headers := statements.filterMap Statement.header?
  messages := statements.filterMap Statement.message?
  enums := statements.filterMap Statement.enumeration?

/-- The document that the tokens of a text make. -/
def ofTokens (tokens : List Token) : Except ParseError Document :=
  match tokens.getLast? with
  | none => .error (.fault ⟨.noEndOfFile, ⟨0, 0⟩⟩)
  | some last =>
    match collect statement ⟨tokens, last, 0⟩ with
    | .error e => .error e
    | .ok (statements, _) => .ok (ofStatements statements)

/-- The document that a text makes. Its tokens have an end, so reading them is never endless. -/
def ofText (text : String) : Except SyntaxError Document :=
  match Token.tokenize text with
  | .error e => .error e
  | .ok tokens =>
    match ofTokens tokens with
    | .ok document => .ok document
    | .error (.fault e) => .error e
    | .error .endless => .error ⟨.noEndOfFile, ⟨0, 0⟩⟩

end SchemaGen.Document
