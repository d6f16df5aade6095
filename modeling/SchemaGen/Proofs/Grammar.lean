import SchemaGen.Document.Parser

/-!
# The grammar of schema texts

The grammar as rules, without a reader. A rule says which tokens a phrase is made of and what it
stands for. Keywords are identifiers by their kind, so where a keyword and a name could both stand,
a rule for the name says that the keyword does not stand there. Comments may stand before statements
and before the items of a body; where a phrase may also have one behind it on the same line, its
rule speaks of the tokens that follow: `Phrase input value rest` is for a phrase at the front of
`input` with `rest` behind it.
-/

namespace SchemaGen.Grammar

open Document (commentText joinComments)
open Text (int32? unquote)

/-! ## Words -/

/-- The token is the keyword `word`. -/
def Keyword (word : String) (t : Token) : Prop :=
  t.kind = .identifier ∧ t.text = word

/-- The token is the symbol `mark`. -/
def Symbol (mark : String) (t : Token) : Prop :=
  t.kind = .symbol ∧ t.text = mark

/-- All of `ts` are comments. -/
def Comments (ts : List Token) : Prop :=
  ∀ t ∈ ts, t.kind = .comment

/-- What comments say, one by one. -/
def said (ts : List Token) : List String :=
  ts.map fun t => commentText t.text

/-- The first of `ts` is none of the words of which `P` holds. -/
def NotAhead (P : Token → Prop) (ts : List Token) : Prop :=
  ∀ t, ts.head? = some t → ¬ P t

/-- A comment that starts on the line `line`, if one stands next, and what it says. -/
inductive Behind (line : Nat) : List Token → List String → List Token → Prop
  | comment {t : Token} {rest : List Token} (kind : t.kind = .comment)
      (same : t.position.line = line) : Behind line (t :: rest) (said [t]) rest
  | nothing {rest : List Token}
      (none : NotAhead (fun t => t.kind = .comment ∧ t.position.line = line) rest) :
      Behind line rest [] rest

/-! ## Settings -/

/-- The value of an option: a string by its contents, a name or an integer as written. -/
inductive Value : Token → String → Prop
  | string {t : Token} (kind : t.kind = .string) : Value t (unquote t.text)
  | identifier {t : Token} (kind : t.kind = .identifier) : Value t t.text
  | integer {t : Token} (kind : t.kind = .integer) : Value t t.text

/-- `name = value`. -/
inductive Setting : List Token → String × String → Prop
  | mk {name equals value : Token} {v : String} (hname : name.kind = .identifier)
      (hequals : Symbol "=" equals) (hvalue : Value value v) :
      Setting [name, equals, value] (name.text, v)

/-- Settings, at least one, with commas between them. -/
inductive Settings : List Token → List (String × String) → Prop
  | one {ts : List Token} {s : String × String} (hsetting : Setting ts s) : Settings ts [s]
  | more {ts rest : List Token} {comma : Token} {s : String × String}
      {others : List (String × String)} (hsetting : Setting ts s) (hcomma : Symbol "," comma)
      (hothers : Settings rest others) : Settings (ts ++ comma :: rest) (s :: others)

/-- The options of a field: nothing, or settings in brackets. -/
inductive Options : List Token → List (String × String) → Prop
  | nothing : Options [] []
  | settings {opening closing : Token} {ts : List Token} {settings : List (String × String)}
      (hopening : Symbol "[" opening) (hsettings : Settings ts settings)
      (hclosing : Symbol "]" closing) : Options (opening :: ts ++ [closing]) settings

/-- Whether one of the settings is `ignore = true`. -/
def ignores (settings : List (String × String)) : Bool :=
  decide (("ignore", "true") ∈ settings)

/-! ## Members of definitions -/

/-- `name = number [settings];` and a comment on the line of the semicolon. -/
inductive Numbered (before : List String) : List Token → ConstantDecl → List Token → Prop
  | mk {name equals number semicolon : Token} {options input rest : List Token}
      {settings : List (String × String)} {n : Int} {behind : List String}
      (hname : name.kind = .identifier) (hequals : Symbol "=" equals)
      (hnumber : number.kind = .integer) (hvalue : int32? number.text = some n)
      (hoptions : Options options settings) (hsemicolon : Symbol ";" semicolon)
      (hbehind : Behind semicolon.position.line input behind rest) :
      Numbered before (name :: equals :: number :: options ++ semicolon :: input)
        { name := name.text
          comment := joinComments (before ++ behind)
          ignored := ignores settings
          number := n
          position := name.position } rest

/-- The words that can stand before the type of a field. -/
def IsLabel (t : Token) : Prop :=
  Keyword "repeated" t ∨ Keyword "optional" t ∨ Keyword "required" t

/-- The word before a field's type, if there is one, and what it means for the field. -/
inductive Label : List Token → Cardinality → List Token → Prop
  | repeated {t : Token} {rest : List Token} (word : Keyword "repeated" t) :
      Label (t :: rest) .repeated rest
  | optional {t : Token} {rest : List Token} (word : Keyword "optional" t) :
      Label (t :: rest) .singular rest
  | required {t : Token} {rest : List Token} (word : Keyword "required" t) :
      Label (t :: rest) .singular rest
  | nothing {rest : List Token} (none : NotAhead IsLabel rest) : Label rest .singular rest

/-- The type of a field: a name that is not the keyword `map`, or a map. A map field holds one map
only. -/
inductive FieldType : Cardinality → List Token → TypeExpr → Prop
  | named {cardinality : Cardinality} {t : Token} (kind : t.kind = .identifier)
      (notMap : t.text ≠ "map") : FieldType cardinality [t] (.named t.text)
  | map {word less key comma value greater : Token} (hword : Keyword "map" word)
      (hless : Symbol "<" less) (hkey : key.kind = .identifier) (hcomma : Symbol "," comma)
      (hvalue : value.kind = .identifier) (hgreater : Symbol ">" greater) :
      FieldType .singular [word, less, key, comma, value, greater] (.map key.text value.text)

/-- A field of a message. -/
inductive Field (before : List String) : List Token → FieldDecl → List Token → Prop
  | mk {input typed type middle rest : List Token} {cardinality : Cardinality} {expr : TypeExpr}
      {c : ConstantDecl} (hlabel : Label input cardinality typed) (hinput : typed = type ++ middle)
      (htype : FieldType cardinality type expr) (hnumbered : Numbered before middle c rest) :
      Field before input
        { c.toDescribed with
          number := c.number
          type := expr
          cardinality
          position := c.position } rest

/-! ## Definitions -/

/-- The words that no member starts with: an option or reserved numbers would start there, or a
definition inside the definition, which cannot be. -/
def StartsOther (t : Token) : Prop :=
  Keyword "option" t ∨ Keyword "reserved" t ∨
    ∃ word ∈ ["message", "enum", "oneof", "extensions", "extend", "group"], Keyword word t

/-- The body of a definition through its closing brace: the settings of its options, and its
members. -/
inductive Body {μ : Type} (Member : List String → List Token → μ → List Token → Prop) :
    List Token → List (String × String) → List μ → List Token → Prop
  | close {comments rest : List Token} {brace : Token} (hcomments : Comments comments)
      (hbrace : Symbol "\x7d" brace) : Body Member (comments ++ brace :: rest) [] [] rest
  | option {comments ts input rest : List Token} {word semicolon : Token} {s : String × String}
      {settings : List (String × String)} {members : List μ} (hcomments : Comments comments)
      (hword : Keyword "option" word) (hsetting : Setting ts s)
      (hsemicolon : Symbol ";" semicolon) (hrest : Body Member input settings members rest) :
      Body Member (comments ++ word :: ts ++ semicolon :: input) (s :: settings) members rest
  | reserved {comments ts input rest : List Token} {word semicolon : Token}
      {settings : List (String × String)} {members : List μ} (hcomments : Comments comments)
      (hword : Keyword "reserved" word) (hskipped : ∀ t ∈ ts, ¬ Symbol ";" t)
      (hsemicolon : Symbol ";" semicolon) (hrest : Body Member input settings members rest) :
      Body Member (comments ++ word :: ts ++ semicolon :: input) settings members rest
  | member {comments input middle rest : List Token} {m : μ} {settings : List (String × String)}
      {members : List μ} (hcomments : Comments comments) (hstart : NotAhead StartsOther input)
      (hmember : Member (said comments) input m middle)
      (hrest : Body Member middle settings members rest) :
      Body Member (comments ++ input) settings (m :: members) rest

/-- `name { ... }` behind the keyword, with a comment on the line of the opening brace. -/
inductive Definition {μ : Type} (Member : List String → List Token → μ → List Token → Prop)
    (before : List String) : List Token → Declaration μ → List Token → Prop
  | mk {name brace : Token} {input middle rest : List Token} {behind : List String}
      {settings : List (String × String)} {members : List μ} (hname : name.kind = .identifier)
      (hbrace : Symbol "\x7b" brace) (hbehind : Behind brace.position.line input behind middle)
      (hbody : Body Member middle settings members rest) :
      Definition Member before (name :: brace :: input)
        { name := name.text
          comment := joinComments (before ++ behind)
          ignored := ignores settings
          members
          position := name.position } rest

/-! ## Files -/

/-- A statement that is no definition. -/
inductive HeaderLine : List Token → Header → Prop
  | level {word equals value semicolon : Token} (hword : Keyword "syntax" word)
      (hequals : Symbol "=" equals) (hvalue : value.kind = .string)
      (hsemicolon : Symbol ";" semicolon) :
      HeaderLine [word, equals, value, semicolon] ⟨.level, "syntax", unquote value.text⟩
  | package {word name semicolon : Token} (hword : Keyword "package" word)
      (hname : name.kind = .identifier) (hsemicolon : Symbol ";" semicolon) :
      HeaderLine [word, name, semicolon]
        ⟨.package, "package", String.ofList (name.text.toList.dropWhile (· = '.'))⟩
  | importing {word path semicolon : Token} {access : List Token} (hword : Keyword "import" word)
      (haccess : access = [] ∨ ∃ t, (Keyword "public" t ∨ Keyword "weak" t) ∧ access = [t])
      (hpath : path.kind = .string) (hsemicolon : Symbol ";" semicolon) :
      HeaderLine (word :: access ++ [path, semicolon])
        ⟨.importing, unquote path.text, unquote path.text⟩
  | option {word semicolon : Token} {ts : List Token} {s : String × String}
      (hword : Keyword "option" word) (hsetting : Setting ts s)
      (hsemicolon : Symbol ";" semicolon) :
      HeaderLine (word :: ts ++ [semicolon]) ⟨.option, s.1, s.2⟩

/-- A whole file and the document that it stands for: headers, messages and enumerations in their
order. -/
inductive File : List Token → Document → Prop
  | done {comments : List Token} {mark : Token} (hcomments : Comments comments)
      (hmark : mark.kind = .endOfFile) : File (comments ++ [mark]) ⟨[], [], []⟩
  | header {comments ts rest : List Token} {h : Header} {d : Document}
      (hcomments : Comments comments) (hheader : HeaderLine ts h) (hrest : File rest d) :
      File (comments ++ ts ++ rest) { d with headers := h :: d.headers }
  | message {comments input rest : List Token} {word : Token} {m : MessageDecl} {d : Document}
      (hcomments : Comments comments) (hword : Keyword "message" word)
      (hmessage : Definition Field (said comments) input m rest) (hrest : File rest d) :
      File (comments ++ word :: input) { d with messages := m :: d.messages }
  | enumeration {comments input rest : List Token} {word : Token} {e : EnumDecl} {d : Document}
      (hcomments : Comments comments) (hword : Keyword "enum" word)
      (henum : Definition Numbered (said comments) input e rest) (hrest : File rest d) :
      File (comments ++ word :: input) { d with enums := e :: d.enums }

end SchemaGen.Grammar
