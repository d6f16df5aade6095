import SchemaGen.Proofs.Parsing

/-!
# Tokens without comments

A file stays one when its comments are taken out, and it stands for the same document without
comments. The rules of the grammar show it: comments stand before statements and items, behind an
opening brace or a semicolon, and among the tokens that reserved numbers pass over, and each of
these rules also holds for no comments at all. Only where a rule says that a word does not stand next
must it be seen that no comment hides the word; there a name stands next.

Results:
1. `Plain.withoutComments`: phrases without comments.
2. `field_withoutComments`, `body_withoutComments`, `definition_withoutComments`: members and
   definitions.
3. `file_withoutComments`: files, by an induction over their statements.
4. `ofTokens_withoutComments`: the tokens of a text.
-/

namespace SchemaGen

/-! ## Definitions -/

/-- The tokens that are no comments. -/
def Token.withoutComments (ts : List Token) : List Token :=
  ts.filter fun t => !t.isComment

/-- A constant without its comment. -/
def ConstantDecl.uncommented (c : ConstantDecl) : ConstantDecl :=
  { c with comment := none }

/-- A field without its comment. -/
def FieldDecl.uncommented (f : FieldDecl) : FieldDecl :=
  { f with comment := none }

/-- A definition without its comment and those of its members. -/
def Declaration.uncommented {μ : Type} (erase : μ → μ) (d : Declaration μ) : Declaration μ :=
  { d with
    comment := none
    members := d.members.map erase }

/-- A document without the comments of its declarations. -/
def Document.uncommented (d : Document) : Document where
  headers := d.headers
  messages := d.messages.map (Declaration.uncommented FieldDecl.uncommented)
  enums := d.enums.map (Declaration.uncommented ConstantDecl.uncommented)

namespace Document

open Grammar
open ParsingLemmas
open Token (Scanned withoutComments)

/-- None of the tokens is a comment. -/
def Plain (ts : List Token) : Prop :=
  ∀ t ∈ ts, t.kind ≠ .comment

/-! ## 1. Phrases without comments -/

variable {ts : List Token} {t : Token} {input rest : List Token}

theorem Plain.withoutComments (h : Plain ts) : withoutComments ts = ts :=
  List.filter_eq_self.2 fun t ht => by simp [Token.isComment, h t ht]

theorem plain_withoutComments (ts : List Token) : Plain (withoutComments ts) := by
  intro t ht
  simpa [Token.isComment] using (List.mem_filter.1 ht).2

theorem withoutComments_of_comments (h : Comments ts) : withoutComments ts = [] :=
  List.filter_eq_nil_iff.2 fun t ht => by simp [Token.isComment, h t ht]

theorem withoutComments_append (ts rest : List Token) :
    withoutComments (ts ++ rest) = withoutComments ts ++ withoutComments rest :=
  List.filter_append ts rest

theorem withoutComments_cons (h : t.kind ≠ .comment) (ts : List Token) :
    withoutComments (t :: ts) = t :: withoutComments ts :=
  List.filter_cons_of_pos (by simp [Token.isComment, h])

theorem withoutComments_identifier (h : t.kind = .identifier) (ts : List Token) :
    withoutComments (t :: ts) = t :: withoutComments ts :=
  withoutComments_cons (by simp [h]) ts

theorem withoutComments_symbol {mark : String} (h : Symbol mark t) (ts : List Token) :
    withoutComments (t :: ts) = t :: withoutComments ts :=
  withoutComments_cons (by simp [h.1]) ts

/-- Comments in front of a phrase leave nothing. -/
theorem withoutComments_comments {cs : List Token} (h : Comments cs) (ts : List Token) :
    withoutComments (cs ++ ts) = withoutComments ts := by
  rw [withoutComments_append, withoutComments_of_comments h, List.nil_append]

theorem plain_setting {s : String × String} (h : Setting ts s) : Plain ts := by
  cases h with
  | @mk name equals value v hname hequals hvalue =>
    have hvalue' : value.kind ≠ .comment := by
      cases hvalue with
      | string hkind => simp [hkind]
      | identifier hkind => simp [hkind]
      | integer hkind => simp [hkind]
    simp [Plain, hname, hequals.1, hvalue']

theorem plain_settings {settings : List (String × String)} (h : Grammar.Settings ts settings) :
    Plain ts := by
  induction h with
  | one hsetting => exact plain_setting hsetting
  | more hsetting hcomma _ ih =>
    refine List.forall_mem_append.2 ⟨plain_setting hsetting, List.forall_mem_cons.2 ⟨?_, ih⟩⟩
    simp [hcomma.1]

theorem plain_options {settings : List (String × String)} (h : Options ts settings) : Plain ts := by
  cases h with
  | nothing => nofun
  | settings hopening hsettings hclosing =>
    refine List.forall_mem_cons.2 ⟨by simp [hopening.1], List.forall_mem_append.2
      ⟨plain_settings hsettings, by simp [hclosing.1]⟩⟩

theorem plain_fieldType {cardinality : Cardinality} {type : TypeExpr}
    (h : Grammar.FieldType cardinality ts type) : Plain ts := by
  cases h with
  | named hkind => simp [Plain, hkind]
  | map hword hless hkey hcomma hvalue hgreater =>
    simp [Plain, hword.1, hless.1, hkey, hcomma.1, hvalue, hgreater.1]

theorem plain_headerLine {h : Header} (hheader : HeaderLine ts h) : Plain ts := by
  cases hheader with
  | level hword hequals hvalue hsemicolon =>
    simp [Plain, hword.1, hequals.1, hvalue, hsemicolon.1]
  | package hword hname hsemicolon => simp [Plain, hword.1, hname, hsemicolon.1]
  | importing hword haccess hpath hsemicolon =>
    rcases haccess with rfl | ⟨t, ht | ht, rfl⟩
    · simp [Plain, hword.1, hpath, hsemicolon.1]
    · simp [Plain, hword.1, ht.1, hpath, hsemicolon.1]
    · simp [Plain, hword.1, ht.1, hpath, hsemicolon.1]
  | option hword hsetting hsemicolon =>
    refine List.forall_mem_cons.2 ⟨by simp [hword.1], List.forall_mem_append.2
      ⟨plain_setting hsetting, by simp [hsemicolon.1]⟩⟩

/-! ## 2. Members and definitions -/

/-- A comment behind a phrase is taken out, and then none is there on any line. -/
theorem behind_withoutComments {line : Nat} {words : List String}
    (h : Behind line input words rest) :
    Behind line (withoutComments input) [] (withoutComments rest) := by
  have hnone : NotAhead (fun t => t.kind = .comment ∧ t.position.line = line)
      (withoutComments rest) :=
    fun t ht hcomment => plain_withoutComments rest t (List.mem_of_head? ht) hcomment.1
  cases h with
  | @comment t _ hkind _ =>
    have hcomment : Comments [t] := by simp [Comments, hkind]
    have hrest := withoutComments_comments hcomment rest
    rw [List.singleton_append] at hrest
    rw [hrest]
    exact .nothing hnone
  | nothing => exact .nothing hnone

theorem numbered_withoutComments {before : List String} {c : ConstantDecl}
    (h : Numbered before input c rest) :
    Numbered [] (withoutComments input) c.uncommented (withoutComments rest) := by
  cases h with
  | @mk name equals number semicolon options input _ settings n behind hname hequals hnumber hvalue
      hoptions hsemicolon hbehind =>
    have hnumber' : number.kind ≠ .comment := by simp [hnumber]
    rw [List.cons_append, List.cons_append, List.cons_append, withoutComments_identifier hname,
      withoutComments_symbol hequals, withoutComments_cons hnumber', withoutComments_append,
      (plain_options hoptions).withoutComments, withoutComments_symbol hsemicolon]
    exact .mk hname hequals hnumber hvalue hoptions hsemicolon (behind_withoutComments hbehind)

/-- Where a name stands next, taking out comments changes nothing in what stands next. -/
theorem notAhead_withoutComments {P : Token → Prop} (hstarts : StartsNamed input rest)
    (h : NotAhead P input) : NotAhead P (withoutComments input) := by
  obtain ⟨t, front, rfl, ht⟩ := hstarts
  rw [List.cons_append, withoutComments_identifier ht, notAhead_cons]
  exact h t rfl

theorem field_withoutComments {before : List String} {f : FieldDecl}
    (h : Grammar.Field before input f rest) :
    Grammar.Field [] (withoutComments input) f.uncommented (withoutComments rest) := by
  cases h with
  | @mk typed type middle _ cardinality expr c hlabel hinput htype hnumbered =>
    have htyped : withoutComments typed = type ++ withoutComments middle := by
      rw [hinput, withoutComments_append, (plain_fieldType htype).withoutComments]
    have hstarts : StartsNamed typed rest :=
      hinput ▸ startsNamed_of_fieldType htype (startsNamed_of_numbered hnumbered)
    have hlabel' : Label (withoutComments input) cardinality (withoutComments typed) := by
      cases hlabel with
      | repeated hword =>
        rw [withoutComments_identifier hword.1]
        exact .repeated hword
      | optional hword =>
        rw [withoutComments_identifier hword.1]
        exact .optional hword
      | required hword =>
        rw [withoutComments_identifier hword.1]
        exact .required hword
      | nothing hnone => exact .nothing (notAhead_withoutComments hstarts hnone)
    exact .mk hlabel' htyped htype (numbered_withoutComments hnumbered)

section Bodies

variable {μ : Type} {erase : μ → μ}
  {Member : List String → List Token → μ → List Token → Prop}
  (hmember : ∀ {before input m rest}, Member before input m rest →
    Member [] (withoutComments input) (erase m) (withoutComments rest))
  (hstarts : ∀ {before input m rest}, Member before input m rest → StartsNamed input rest)

include hmember hstarts

theorem body_withoutComments {input rest : List Token} {settings : List (String × String)}
    {members : List μ} (h : Body Member input settings members rest) :
    Body Member (withoutComments input) settings (members.map erase) (withoutComments rest) := by
  have hnone : Comments [] := by nofun
  induction h with
  | close hcomments hbrace =>
    rw [withoutComments_comments hcomments, withoutComments_symbol hbrace]
    exact .close hnone hbrace
  | option hcomments hword hsetting hsemicolon _ ih =>
    rw [List.append_assoc, withoutComments_comments hcomments, List.cons_append,
      withoutComments_identifier hword.1, withoutComments_append,
      (plain_setting hsetting).withoutComments, withoutComments_symbol hsemicolon]
    exact .option hnone hword hsetting hsemicolon ih
  | @reserved _ ts _ _ _ _ _ _ hcomments hword hskipped hsemicolon _ ih =>
    have hskipped' : ∀ t ∈ withoutComments ts, ¬ Symbol ";" t :=
      fun t ht => hskipped t (List.mem_filter.1 ht).1
    rw [List.append_assoc, withoutComments_comments hcomments, List.cons_append,
      withoutComments_identifier hword.1, withoutComments_append,
      withoutComments_symbol hsemicolon]
    exact .reserved hnone hword hskipped' hsemicolon ih
  | member hcomments hstart hm _ ih =>
    rw [withoutComments_comments hcomments]
    exact .member hnone (notAhead_withoutComments (hstarts hm) hstart) (hmember hm) ih

theorem definition_withoutComments {before : List String} {input rest : List Token}
    {d : Declaration μ} (h : Grammar.Definition Member before input d rest) :
    Grammar.Definition Member [] (withoutComments input) (d.uncommented erase)
      (withoutComments rest) := by
  cases h with
  | mk hname hbrace hbehind hbody =>
    rw [withoutComments_identifier hname, withoutComments_symbol hbrace]
    exact .mk hname hbrace (behind_withoutComments hbehind)
      (body_withoutComments hmember hstarts hbody)

end Bodies

/-! ## 3. Files -/

theorem file_withoutComments {d : Document} (h : File ts d) :
    File (withoutComments ts) d.uncommented := by
  have hnone : Comments [] := by nofun
  induction h with
  | done hcomments hmark =>
    rw [withoutComments_comments hcomments, withoutComments_cons (by simp [hmark])]
    exact .done hnone hmark
  | header hcomments hheader _ ih =>
    rw [List.append_assoc, withoutComments_comments hcomments, withoutComments_append,
      (plain_headerLine hheader).withoutComments]
    exact .header hnone hheader ih
  | message hcomments hword hmessage _ ih =>
    rw [withoutComments_comments hcomments, withoutComments_identifier hword.1]
    exact .message hnone hword
      (definition_withoutComments field_withoutComments startsNamed_of_field hmessage) ih
  | enumeration hcomments hword henum _ ih =>
    rw [withoutComments_comments hcomments, withoutComments_identifier hword.1]
    exact .enumeration hnone hword
      (definition_withoutComments numbered_withoutComments startsNamed_of_numbered henum) ih

/-! ## 4. The tokens of a text -/

theorem scanned_withoutComments (h : Scanned ts) : Scanned (withoutComments ts) := by
  induction h with
  | last hkind htext =>
    rw [withoutComments_cons (by simp [hkind])]
    exact .last hkind htext
  | @cons t ts ht _ ih =>
    by_cases hcomment : t.kind = .comment
    · have hcomments : Comments [t] := by simp [Comments, hcomment]
      have hrest := withoutComments_comments hcomments ts
      rw [List.singleton_append] at hrest
      rwa [hrest]
    · rw [withoutComments_cons hcomment]
      exact .cons ht ih

/-- Comments influence nothing but comments: without them, the tokens of a text are read as the same
document without comments. -/
theorem ofTokens_withoutComments {text : String} {ts : List Token} {d : Document}
    (hts : Token.tokenize text = .ok ts) (hd : ofTokens ts = .ok d) :
    ofTokens (withoutComments ts) = .ok d.uncommented := by
  have hscanned := Token.scanned_of_tokenize hts
  have hfile := (ofTokens_eq_ok_iff hscanned d).1 hd
  exact (ofTokens_eq_ok_iff (scanned_withoutComments hscanned) _).2 (file_withoutComments hfile)

/-- Comments wherever they can stand. -/
def commentedText : String :=
  "/* a */ message M \x7b // b\n // c\n repeated T x = 1; // d\n reserved /* e */ 2; // f\n\x7d // g"

def commentedDocument : Document where
  headers := []
  messages := [{
    name := "M"
    comment := some "a b"
    ignored := false
    members := [{
      name := "x"
      comment := some "c d"
      ignored := false
      number := 1
      type := .named "T"
      cardinality := .repeated
      position := ⟨3, 13⟩ }]
    position := ⟨1, 17⟩ }]
  enums := []

theorem ofTokens_withoutComments_commentedText :
    ∃ ts, Token.tokenize commentedText = .ok ts ∧ ofTokens ts = .ok commentedDocument ∧
      ofTokens (withoutComments ts) = .ok commentedDocument.uncommented := by
  have hread : ofText commentedText = .ok commentedDocument := by decide +kernel
  obtain ⟨ts, hts, hdocument⟩ := ofText_eq_ok_iff.1 hread
  exact ⟨ts, hts, hdocument, ofTokens_withoutComments hts hdocument⟩

end Document

end SchemaGen
