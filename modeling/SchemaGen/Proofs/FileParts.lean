import SchemaGen.Proofs.Parsing

/-!
# The parts of a file

A file is a row of parts: statements that are no definitions, the heads of definitions, what stands
in their bodies and the braces that close them. Before a part stand comments. A part that declares
something, the head of a definition or a member, may have one more behind it. The rules of the
grammar give what comments say to the declarations; here the comments themselves are kept, with
their places among the tokens.

Results:
1. `isMember_field_iff`, `isMember_constant_iff`: the tokens of a member.
2. `reading_of_definition`, `definition_of_reading`: the parts of a definition.
3. `exists_reading`, `file_of_reading`: the files that stand for documents are the rows of parts,
   and the parts declare what the document declares.
4. `Document.readings_of_ofTokens`: this for the tokens of a text.
-/

namespace SchemaGen

open Grammar
open Document (joinComments)
open Text (Position int32?)

/-! ## Definitions -/

/-- What a declaration is called and where, and its comment. -/
structure Declared where
  name : String
  comment : Option String
  position : Position
deriving DecidableEq, Repr

/-- A part of a file. -/
structure Part where
  /-- The comments in front of it. -/
  before : List Token
  words : List Token
  /-- The comment that belongs to it from behind, if there is one. -/
  behind : List Token
  /-- The name that it declares. -/
  name : Option Token
deriving DecidableEq, Repr

namespace Part

/-- All tokens that belong to the part. -/
def tokens (p : Part) : List Token :=
  p.before ++ p.words ++ p.behind

/-- The comments that belong to what the part declares. -/
def attached (p : Part) : List Token :=
  p.before ++ p.behind

/-- What the part declares. -/
def declared (p : Part) : Option Declared :=
  p.name.map fun t => ⟨t.text, joinComments (said p.attached), t.position⟩

end Part

/-- What is described, declared at a position. -/
def Described.declaredAt (d : Described) (position : Position) : Declared :=
  ⟨d.name, d.comment, position⟩

/-- A field as it is declared. -/
def FieldDecl.declared (f : FieldDecl) : Declared :=
  f.toDescribed.declaredAt f.position

/-- A constant as it is declared. -/
def ConstantDecl.declared (c : ConstantDecl) : Declared :=
  c.toDescribed.declaredAt c.position

/-- A definition as it is declared, and then its members. -/
def Declaration.declared {μ : Type} (member : μ → Declared) (d : Declaration μ) : List Declared :=
  d.toDescribed.declaredAt d.position :: d.members.map member

/-- All that a document declares. -/
def Document.declared (d : Document) : List Declared :=
  d.messages.flatMap (Declaration.declared FieldDecl.declared) ++
    d.enums.flatMap (Declaration.declared ConstantDecl.declared)

/-- The keyword in front of a definition. -/
def DefinitionKind.keyword : DefinitionKind → String
  | message => "message"
  | enumeration => "enum"

/-- `name = number [settings];` with its name and its semicolon. -/
inductive NumberedWords : List Token → Token → Token → Prop
  | mk {name equals number semicolon : Token} {options : List Token}
      {settings : List (String × String)} {n : Int} (hname : name.kind = .identifier)
      (hequals : Symbol "=" equals) (hnumber : number.kind = .integer)
      (hvalue : int32? number.text = some n) (hoptions : Options options settings)
      (hsemicolon : Symbol ";" semicolon) :
      NumberedWords (name :: equals :: number :: options ++ [semicolon]) name semicolon

/-- A member of a definition with its name and its semicolon. -/
inductive MemberWords : DefinitionKind → List Token → Token → Token → Prop
  | field {words typed type numbered : List Token} {name semicolon : Token}
      {cardinality : Cardinality} {expr : TypeExpr} (hlabel : Label words cardinality typed)
      (htyped : typed = type ++ numbered) (htype : Grammar.FieldType cardinality type expr)
      (hnumbered : NumberedWords numbered name semicolon) :
      MemberWords .message words name semicolon
  | constant {words : List Token} {name semicolon : Token}
      (hnumbered : NumberedWords words name semicolon) :
      MemberWords .enumeration words name semicolon

/-- `Stands level p rest next`: the part `p` can stand in front of `rest`, at the top of a file or
in the body of a definition as `level` says, and what follows stands where `next` says. -/
inductive Stands : Option DefinitionKind → Part → List Token → Option DefinitionKind → Prop
  | header {comments words rest : List Token} {h : Header} (hcomments : Comments comments)
      (hheader : HeaderLine words h) : Stands none ⟨comments, words, [], none⟩ rest none
  | opening {kind : DefinitionKind} {comments behind rest : List Token} {word name brace : Token}
      (hcomments : Comments comments) (hword : Keyword kind.keyword word)
      (hname : name.kind = .identifier) (hbrace : Symbol "\x7b" brace)
      (hbehind : Behind brace.position.line (behind ++ rest) (said behind) rest) :
      Stands none ⟨comments, [word, name, brace], behind, some name⟩ rest (some kind)
  | option {kind : DefinitionKind} {comments ts rest : List Token} {word semicolon : Token}
      {s : String × String} (hcomments : Comments comments) (hword : Keyword "option" word)
      (hsetting : Setting ts s) (hsemicolon : Symbol ";" semicolon) :
      Stands (some kind) ⟨comments, word :: ts ++ [semicolon], [], none⟩ rest (some kind)
  | reserved {kind : DefinitionKind} {comments ts rest : List Token} {word semicolon : Token}
      (hcomments : Comments comments) (hword : Keyword "reserved" word)
      (hskipped : ∀ t ∈ ts, ¬ Symbol ";" t) (hsemicolon : Symbol ";" semicolon) :
      Stands (some kind) ⟨comments, word :: ts ++ [semicolon], [], none⟩ rest (some kind)
  | member {kind : DefinitionKind} {comments words behind rest : List Token}
      {name semicolon : Token} (hcomments : Comments comments)
      (hstart : NotAhead StartsOther words) (hwords : MemberWords kind words name semicolon)
      (hbehind : Behind semicolon.position.line (behind ++ rest) (said behind) rest) :
      Stands (some kind) ⟨comments, words, behind, some name⟩ rest (some kind)
  | closing {kind : DefinitionKind} {comments rest : List Token} {brace : Token}
      (hcomments : Comments comments) (hbrace : Symbol "\x7d" brace) :
      Stands (some kind) ⟨comments, [brace], [], none⟩ rest none

/-- `Reading level ts parts`: from a place as `level` says, the tokens `ts` are these parts. The
last part is the mark for the end of the file. -/
inductive Reading : Option DefinitionKind → List Token → List Part → Prop
  | ending {comments : List Token} {mark : Token} (hcomments : Comments comments)
      (hmark : mark.kind = .endOfFile) :
      Reading none (comments ++ [mark]) [⟨comments, [mark], [], none⟩]
  | step {level next : Option DefinitionKind} {p : Part} {rest : List Token} {parts : List Part}
      (hpart : Stands level p rest next) (hrest : Reading next rest parts) :
      Reading level (p.tokens ++ rest) (p :: parts)

variable {rest ts : List Token} {line : Nat} {behind : List Token} {level : Option DefinitionKind}
  {parts : List Part} {d : Document}

/-- Behind a declaration stands one comment, or none is ahead on its line. -/
theorem behind_cases {words : List String} (h : Behind line (behind ++ rest) words rest) :
    (∃ t, behind = [t] ∧ t.kind = .comment) ∨
      behind = [] ∧ NotAhead (fun t => t.kind = .comment ∧ t.position.line = line) rest := by
  generalize hinput : behind ++ rest = input at h
  cases h with
  | @comment t _ hkind => exact .inl ⟨t, List.append_cancel_right (hinput.trans rfl), hkind⟩
  | nothing hnone => exact .inr ⟨List.append_cancel_right (hinput.trans rfl), hnone⟩

theorem comments_of_behind {words : List String} (h : Behind line (behind ++ rest) words rest) :
    Comments behind := by
  obtain ⟨t, rfl, hkind⟩ | ⟨rfl, -⟩ := behind_cases h
  · exact List.forall_mem_singleton.2 hkind
  · exact nofun

theorem Stands.comments {next : Option DefinitionKind} {p : Part} (h : Stands level p rest next) :
    Comments p.attached := by
  cases h with
  | header hcomments | option hcomments | reserved hcomments | closing hcomments =>
    simpa only [Part.attached, List.append_nil] using hcomments
  | opening hcomments _ _ _ hbehind | member hcomments _ _ hbehind =>
    exact List.forall_mem_append.2 ⟨hcomments, comments_of_behind hbehind⟩

/-- What belongs to a declaration besides its words are comments. -/
theorem Reading.comments (h : Reading level ts parts) : ∀ p ∈ parts, Comments p.attached := by
  induction h with
  | ending hcomments => simpa [Part.attached] using hcomments
  | step hpart _ ih => exact List.forall_mem_cons.2 ⟨hpart.comments, ih⟩

/-! ## 1. Members -/

namespace FilePartsLemmas

theorem notAhead_append_iff {P : Token → Prop} {ts : List Token} (hne : ts ≠ [])
    (rest : List Token) : NotAhead P (ts ++ rest) ↔ NotAhead P ts := by
  obtain ⟨t, ts, rfl⟩ := List.exists_cons_of_ne_nil hne
  exact Iff.rfl

variable {input rest before : List Token} {x : Declared}

/-- What stands behind on the same line, as tokens. -/
theorem exists_behind {line : Nat} {words : List String} (h : Behind line input words rest) :
    ∃ behind, input = behind ++ rest ∧ words = said behind ∧
      Behind line (behind ++ rest) (said behind) rest := by
  cases h with
  | @comment t _ hkind hline => exact ⟨[t], rfl, rfl, .comment hkind hline⟩
  | nothing hnone => exact ⟨[], rfl, rfl, .nothing hnone⟩

/-- A label is read from the tokens in front of it alone. -/
theorem label_append_iff {typed : List Token} {cardinality : Cardinality} (hne : typed ≠ [])
    (more : List Token) :
    Label input cardinality (typed ++ more) ↔
      ∃ words, input = words ++ more ∧ Label words cardinality typed := by
  constructor
  · intro h
    cases h with
    | repeated hword => exact ⟨_ :: typed, rfl, .repeated hword⟩
    | optional hword => exact ⟨_ :: typed, rfl, .optional hword⟩
    | required hword => exact ⟨_ :: typed, rfl, .required hword⟩
    | nothing hnone => exact ⟨typed, rfl, .nothing ((notAhead_append_iff hne more).1 hnone)⟩
  · rintro ⟨words, rfl, h⟩
    cases h with
    | repeated hword => exact .repeated hword
    | optional hword => exact .optional hword
    | required hword => exact .required hword
    | nothing hnone => exact .nothing ((notAhead_append_iff hne more).2 hnone)

variable {name semicolon : Token}

theorem NumberedWords.ne_nil {words : List Token} (h : NumberedWords words name semicolon) :
    words ≠ [] := by
  cases h
  simp

theorem MemberWords.ne_nil {kind : DefinitionKind} {words : List Token}
    (h : MemberWords kind words name semicolon) : words ≠ [] := by
  cases h with
  | field hlabel htyped _ hnumbered =>
    cases hlabel with
    | nothing => simp [htyped, NumberedWords.ne_nil hnumbered]
    | _ => simp
  | constant hnumbered => exact NumberedWords.ne_nil hnumbered

/-- The tokens `input` in front of `rest` are a member of a definition, and with the comments
`before` it makes the declaration `x`. -/
def IsMember (kind : DefinitionKind) (before input : List Token) (x : Declared)
    (rest : List Token) : Prop :=
  ∃ words behind name semicolon, input = words ++ (behind ++ rest) ∧
    MemberWords kind words name semicolon ∧
    Behind semicolon.position.line (behind ++ rest) (said behind) rest ∧
    x = ⟨name.text, joinComments (said (before ++ behind)), name.position⟩

theorem numbered_iff_words :
    (∃ c, Numbered (said before) input c rest ∧ c.declared = x) ↔
      ∃ words behind name semicolon, input = words ++ (behind ++ rest) ∧
        NumberedWords words name semicolon ∧
        Behind semicolon.position.line (behind ++ rest) (said behind) rest ∧
        x = ⟨name.text, joinComments (said (before ++ behind)), name.position⟩ := by
  constructor
  · rintro ⟨c, h, rfl⟩
    cases h with
    | @mk name _ _ semicolon _ _ _ _ _ _ hname hequals hnumber hvalue hoptions hsemicolon hbehind =>
      obtain ⟨behind, rfl, rfl, hbehind'⟩ := exists_behind hbehind
      refine ⟨_, behind, name, semicolon, ?_,
        .mk hname hequals hnumber hvalue hoptions hsemicolon, hbehind', ?_⟩
      · simp only [List.cons_append, List.append_assoc, List.nil_append]
      · rw [ConstantDecl.declared, Described.declaredAt, said, said, said, List.map_append]
  · rintro ⟨words, behind, name, semicolon, rfl, h, hbehind, rfl⟩
    cases h with
    | mk hname hequals hnumber hvalue hoptions hsemicolon =>
      have hnumbered : Numbered (said before) _ _ rest :=
        .mk hname hequals hnumber hvalue hoptions hsemicolon hbehind
      simp only [List.cons_append, List.append_assoc, List.nil_append] at hnumbered ⊢
      refine ⟨_, hnumbered, ?_⟩
      rw [ConstantDecl.declared, Described.declaredAt, said, said, said, List.map_append]

theorem isMember_constant_iff :
    IsMember .enumeration before input x rest ↔
      ∃ c, Numbered (said before) input c rest ∧ c.declared = x := by
  rw [numbered_iff_words]
  constructor
  · rintro ⟨words, behind, name, semicolon, hinput, hwords, hbehind, hx⟩
    cases hwords with
    | constant hnumbered => exact ⟨words, behind, name, semicolon, hinput, hnumbered, hbehind, hx⟩
  · rintro ⟨words, behind, name, semicolon, hinput, hwords, hbehind, hx⟩
    exact ⟨words, behind, name, semicolon, hinput, .constant hwords, hbehind, hx⟩

theorem isMember_field_iff :
    IsMember .message before input x rest ↔
      ∃ f, Grammar.Field (said before) input f rest ∧ f.declared = x := by
  constructor
  · rintro ⟨words, behind, name, semicolon, rfl, h, hbehind, hx⟩
    cases h with
    | @field _ typed type numbered _ _ cardinality expr hlabel htyped htype hnumbered =>
      subst htyped
      obtain ⟨c, hc, rfl⟩ := numbered_iff_words.2
        ⟨numbered, behind, name, semicolon, rfl, hnumbered, hbehind, hx⟩
      have hne : type ++ numbered ≠ [] :=
        List.append_ne_nil_of_right_ne_nil type (NumberedWords.ne_nil hnumbered)
      have hlabel' := (label_append_iff hne (behind ++ rest)).2 ⟨words, rfl, hlabel⟩
      exact ⟨_, .mk hlabel' (List.append_assoc ..) htype hc, rfl⟩
  · rintro ⟨f, h, rfl⟩
    cases h with
    | @mk typed type middle _ cardinality expr c hlabel htyped htype hnumbered =>
      obtain ⟨numbered, behind, name, semicolon, rfl, hwords, hbehind, hx⟩ :=
        numbered_iff_words.1 ⟨c, hnumbered, rfl⟩
      have hne : type ++ numbered ≠ [] :=
        List.append_ne_nil_of_right_ne_nil type (NumberedWords.ne_nil hwords)
      rw [htyped, ← List.append_assoc, label_append_iff hne] at hlabel
      obtain ⟨words, hinput, hlabel'⟩ := hlabel
      exact ⟨words, behind, name, semicolon, hinput, .field hlabel' rfl htype hwords, hbehind, hx⟩

/-! ## 2. Definitions -/

theorem reading_cons {level next : Option DefinitionKind} {p : Part} {ts : List Token}
    {parts : List Part} (hpart : Stands level p rest next) (hrest : Reading next rest parts)
    (hts : ts = p.before ++ (p.words ++ (p.behind ++ rest))) : Reading level ts (p :: parts) := by
  have htokens : p.tokens ++ rest = p.before ++ (p.words ++ (p.behind ++ rest)) := by
    simp only [Part.tokens, List.append_assoc]
  rw [hts, ← htokens]
  exact .step hpart hrest

section Definitions

variable {μ : Type} {Member : List String → List Token → μ → List Token → Prop}
  {kind : DefinitionKind} {declare : μ → Declared}
  (hmember : ∀ {before input x rest}, IsMember kind before input x rest ↔
    ∃ m, Member (said before) input m rest ∧ declare m = x)

include hmember

variable {input : List Token} {parts inner : List Part}

theorem reading_of_body {rest : List Token} {settings : List (String × String)} {members : List μ}
    (h : Body Member input settings members rest) (hrest : Reading none rest parts) :
    ∃ inner, Reading (some kind) input inner ∧
      inner.filterMap Part.declared = members.map declare ++ parts.filterMap Part.declared := by
  induction h with
  | close hcomments hbrace =>
    exact ⟨_ :: parts, reading_cons (.closing hcomments hbrace) hrest rfl, rfl⟩
  | option hcomments hword hsetting hsemicolon _ ih =>
    obtain ⟨inner, hinner, hdeclared⟩ := ih hrest
    exact ⟨_ :: inner, reading_cons (.option hcomments hword hsetting hsemicolon) hinner
      (by simp only [List.cons_append, List.append_assoc, List.nil_append]), hdeclared⟩
  | reserved hcomments hword hskipped hsemicolon _ ih =>
    obtain ⟨inner, hinner, hdeclared⟩ := ih hrest
    exact ⟨_ :: inner, reading_cons (.reserved hcomments hword hskipped hsemicolon) hinner
      (by simp only [List.cons_append, List.append_assoc, List.nil_append]), hdeclared⟩
  | member hcomments hstart hm _ ih =>
    obtain ⟨inner, hinner, hdeclared⟩ := ih hrest
    obtain ⟨words, behind, name, semicolon, rfl, hwords, hbehind, hx⟩ := hmember.2 ⟨_, hm, rfl⟩
    rw [notAhead_append_iff (MemberWords.ne_nil hwords)] at hstart
    refine ⟨_ :: inner, reading_cons (.member hcomments hstart hwords hbehind) hinner rfl, ?_⟩
    rw [List.map_cons, List.cons_append, ← hdeclared, hx]
    rfl

/-- The parts of a body end with its closing brace. -/
theorem body_of_reading (h : Reading (some kind) input inner) :
    ∃ settings members rest parts, Body Member input settings members rest ∧
      Reading none rest parts ∧ parts.length ≤ inner.length ∧
      inner.filterMap Part.declared = members.map declare ++ parts.filterMap Part.declared := by
  generalize hlevel : some kind = level at h
  induction h with
  | ending => cases hlevel
  | @step _ next p rest parts hpart hrest ih =>
    subst hlevel
    cases hpart with
    | @option _ comments ts _ word semicolon s hcomments hword hsetting hsemicolon =>
      obtain ⟨settings, members, after, others, hbody, hothers, hlength, hdeclared⟩ := ih rfl
      refine ⟨s :: settings, members, after, others, ?_, hothers, Nat.le_succ_of_le hlength,
        hdeclared⟩
      have hall := Body.option hcomments hword hsetting hsemicolon hbody
      simpa only [Part.tokens, List.cons_append, List.append_assoc, List.nil_append] using hall
    | reserved hcomments hword hskipped hsemicolon =>
      obtain ⟨settings, members, after, others, hbody, hothers, hlength, hdeclared⟩ := ih rfl
      refine ⟨settings, members, after, others, ?_, hothers, Nat.le_succ_of_le hlength, hdeclared⟩
      have hall := Body.reserved hcomments hword hskipped hsemicolon hbody
      simpa only [Part.tokens, List.cons_append, List.append_assoc, List.nil_append] using hall
    | @member _ comments words behind _ name semicolon hcomments hstart hwords hbehind =>
      obtain ⟨settings, members, after, others, hbody, hothers, hlength, hdeclared⟩ := ih rfl
      obtain ⟨m, hm, hx⟩ := hmember.1 ⟨words, behind, name, semicolon, rfl, hwords, hbehind, rfl⟩
      rw [← notAhead_append_iff (MemberWords.ne_nil hwords)] at hstart
      refine ⟨settings, m :: members, after, others, ?_, hothers, Nat.le_succ_of_le hlength, ?_⟩
      · have hall := Body.member hcomments hstart hm hbody
        simpa only [Part.tokens, List.append_assoc] using hall
      · rw [List.map_cons, List.cons_append, ← hdeclared, hx]
        rfl
    | @closing _ comments _ brace hcomments hbrace =>
      refine ⟨[], [], rest, parts, ?_, hrest, Nat.le_succ _, rfl⟩
      have hall : Body Member (comments ++ brace :: rest) [] [] rest := .close hcomments hbrace
      simpa only [Part.tokens, List.append_assoc, List.nil_append, List.cons_append] using hall

theorem reading_of_definition {comments rest : List Token} {word : Token} {d : Declaration μ}
    (hcomments : Comments comments) (hword : Keyword kind.keyword word)
    (h : Grammar.Definition Member (said comments) input d rest) (hrest : Reading none rest parts) :
    ∃ all, Reading none (comments ++ word :: input) all ∧
      all.filterMap Part.declared = d.declared declare ++ parts.filterMap Part.declared := by
  cases h with
  | @mk name brace _ _ _ _ _ _ hname hbrace hbehind hbody =>
    obtain ⟨behind, rfl, rfl, hbehind'⟩ := exists_behind hbehind
    obtain ⟨inner, hinner, hdeclared⟩ := reading_of_body hmember hbody hrest
    have hopening := Stands.opening hcomments hword hname hbrace hbehind'
    refine ⟨_ :: inner, reading_cons hopening hinner rfl, ?_⟩
    rw [Declaration.declared, Described.declaredAt, List.cons_append, ← hdeclared, said, said,
      ← List.map_append]
    rfl

theorem definition_of_reading (comments : List Token) {behind middle : List Token}
    {name brace : Token} (hname : name.kind = .identifier) (hbrace : Symbol "\x7b" brace)
    (hbehind : Behind brace.position.line (behind ++ middle) (said behind) middle)
    (h : Reading (some kind) middle inner) :
    ∃ d rest parts,
      Grammar.Definition Member (said comments) (name :: brace :: (behind ++ middle)) d rest ∧
      Reading none rest parts ∧ parts.length ≤ inner.length ∧
      (⟨name.text, joinComments (said (comments ++ behind)), name.position⟩ : Declared) ::
        inner.filterMap Part.declared = d.declared declare ++ parts.filterMap Part.declared := by
  obtain ⟨settings, members, rest, parts, hbody, hrest, hlength, hdeclared⟩ :=
    body_of_reading hmember h
  refine ⟨_, rest, parts, .mk hname hbrace hbehind hbody, hrest, hlength, ?_⟩
  rw [Declaration.declared, Described.declaredAt, List.cons_append, ← hdeclared, said, said, said,
    ← List.map_append]

end Definitions

end FilePartsLemmas

open FilePartsLemmas

/-! ## 3. Files -/

namespace Document

variable {d : Document}

theorem perm_declared_message {declared : List Declared} (m : MessageDecl)
    (h : declared.Perm d.declared) :
    (m.declared FieldDecl.declared ++ declared).Perm
      ({ d with messages := m :: d.messages } : Document).declared := by
  rw [Document.declared, List.flatMap_cons, List.append_assoc]
  exact h.append_left _

theorem perm_declared_enumeration {declared : List Declared} (e : EnumDecl)
    (h : declared.Perm d.declared) :
    (e.declared ConstantDecl.declared ++ declared).Perm
      ({ d with enums := e :: d.enums } : Document).declared := by
  rw [Document.declared, List.flatMap_cons]
  exact (h.append_left _).trans (List.perm_append_comm_assoc _ _ _)

end Document

/-- A file that stands for a document is a row of parts, and together they declare what the document
declares. A document lists its messages before its enumerations, so the order can be another one. -/
theorem exists_reading (h : File ts d) :
    ∃ parts, Reading none ts parts ∧ (parts.filterMap Part.declared).Perm d.declared := by
  induction h with
  | done hcomments hmark => exact ⟨_, .ending hcomments hmark, .refl _⟩
  | header hcomments hheader _ ih =>
    obtain ⟨parts, hparts, hperm⟩ := ih
    exact ⟨_ :: parts, reading_cons (.header hcomments hheader) hparts (List.append_assoc ..),
      hperm⟩
  | message hcomments hword hm _ ih =>
    obtain ⟨parts, hparts, hperm⟩ := ih
    obtain ⟨all, hall, hdeclared⟩ :=
      reading_of_definition isMember_field_iff hcomments hword hm hparts
    exact ⟨all, hall, hdeclared ▸ Document.perm_declared_message _ hperm⟩
  | enumeration hcomments hword he _ ih =>
    obtain ⟨parts, hparts, hperm⟩ := ih
    obtain ⟨all, hall, hdeclared⟩ :=
      reading_of_definition isMember_constant_iff hcomments hword he hparts
    exact ⟨all, hall, hdeclared ▸ Document.perm_declared_enumeration _ hperm⟩

/-- Only such files are rows of parts, and whatever row of parts a file is taken for, it declares
the same. -/
theorem file_of_reading (h : Reading none ts parts) :
    ∃ d, File ts d ∧ (parts.filterMap Part.declared).Perm d.declared := by
  induction hn : parts.length using Nat.strongRecOn generalizing ts parts with
  | ind n ih =>
    cases h with
    | ending hcomments hmark => exact ⟨_, .done hcomments hmark, .refl _⟩
    | @step _ next p rest parts hpart hrest =>
      subst hn
      cases hpart with
      | @header _ _ _ h hcomments hheader =>
        obtain ⟨d, hd, hperm⟩ := ih _ (Nat.lt_succ_self _) hrest rfl
        refine ⟨{ d with headers := h :: d.headers }, ?_, hperm⟩
        have hall := File.header hcomments hheader hd
        simpa only [Part.tokens, List.append_nil] using hall
      | @opening kind comments behind _ word name brace hcomments hword hname hbrace hbehind =>
        have htokens : (Part.mk comments [word, name, brace] behind (some name)).tokens ++ rest =
            comments ++ word :: name :: brace :: (behind ++ rest) := by
          simp only [Part.tokens, List.append_assoc, List.cons_append, List.nil_append]
        rw [htokens]
        cases kind with
        | message =>
          obtain ⟨m, after, others, hm, hothers, hlength, hdeclared⟩ :=
            definition_of_reading isMember_field_iff comments hname hbrace hbehind hrest
          obtain ⟨d, hd, hperm⟩ := ih _ (Nat.lt_succ_of_le hlength) hothers rfl
          exact ⟨_, .message hcomments hword hm hd,
            (List.Perm.of_eq hdeclared).trans (Document.perm_declared_message m hperm)⟩
        | enumeration =>
          obtain ⟨e, after, others, he, hothers, hlength, hdeclared⟩ :=
            definition_of_reading isMember_constant_iff comments hname hbrace hbehind hrest
          obtain ⟨d, hd, hperm⟩ := ih _ (Nat.lt_succ_of_le hlength) hothers rfl
          exact ⟨_, .enumeration hcomments hword he hd,
            (List.Perm.of_eq hdeclared).trans (Document.perm_declared_enumeration e hperm)⟩

/-! ## 4. Texts -/

/-- The tokens of a text that is read as `d` are a row of parts, and they declare what `d`
declares. -/
theorem Document.readings_of_ofTokens {text : String} (hts : Token.tokenize text = .ok ts)
    (hd : ofTokens ts = .ok d) :
    (∃ parts, Reading none ts parts) ∧
      ∀ parts, Reading none ts parts → (parts.filterMap Part.declared).Perm d.declared := by
  have hscanned := Token.scanned_of_tokenize hts
  constructor
  · obtain ⟨parts, hparts, -⟩ := exists_reading ((ofTokens_eq_ok_iff hscanned d).1 hd)
    exact ⟨parts, hparts⟩
  · intro parts hparts
    obtain ⟨d', hd', hperm⟩ := file_of_reading hparts
    obtain rfl := Except.ok.inj (hd.symm.trans ((ofTokens_eq_ok_iff hscanned d').2 hd'))
    exact hperm

end SchemaGen
