import SchemaGen.Proofs.Location
import SchemaGen.Proofs.Parsing
import SchemaGen.Proofs.Words

/-!
# What a document that was read is like

Every derivation of the grammar keeps what the tokens of a text promise: names are names, numbers
fit into 32 bits, comments are single lines without blanks at their ends, a type by name is not
`map`, a map field holds one map, and no constant is named like a word that starts something else.

The main result is `printable_of_ofText`: all this holds of a document that was read from a text.
-/

namespace SchemaGen

open Grammar
open Text (isBlank trimBlanks trimWhile)
open Token (IsName Scanned)

/-! ## Definitions -/

/-- One line without blanks at its ends, maybe empty. -/
structure Tidy (cs : List Char) : Prop where
  newline : '\n' ∉ cs
  front : ∀ c, cs.head? = some c → isBlank c = false
  back : ∀ c, cs.getLast? = some c → isBlank c = false

/-- The name is a name, and the comment says something on one line. -/
structure Described.Printable (d : Described) : Prop where
  name : IsName d.name.toList
  comment : ∀ c, d.comment = some c → Tidy c.toList ∧ c.toList ≠ []

/-- The integer has 32 bits. -/
def FitsInt32 (n : Int) : Prop :=
  -2147483648 ≤ n ∧ n ≤ 2147483647

/-- The type can be written for a field with this cardinality. -/
def TypeExpr.Printable (cardinality : Cardinality) : TypeExpr → Prop
  | named name => IsName name.toList ∧ name ≠ "map"
  | map key value => IsName key.toList ∧ IsName value.toList ∧ cardinality = .singular

/-- A field as it can be written. -/
structure FieldDecl.Printable (f : FieldDecl) : Prop where
  described : f.toDescribed.Printable
  number : FitsInt32 f.number
  type : f.type.Printable f.cardinality

/-- The words that start something else than a constant. -/
def reservedWords : List String :=
  ["option", "reserved", "message", "enum", "oneof", "extensions", "extend", "group"]

/-- A constant as it can be written. -/
structure ConstantDecl.Printable (c : ConstantDecl) : Prop where
  described : c.toDescribed.Printable
  number : FitsInt32 c.number
  name : c.name ∉ reservedWords

/-- A definition as it can be written, with members of which `P` holds. -/
structure Declaration.Printable {μ : Type} (P : μ → Prop) (d : Declaration μ) : Prop where
  described : d.toDescribed.Printable
  members : ∀ m ∈ d.members, P m

/-- A header as it can be written. -/
def Header.Printable (h : Header) : Prop :=
  match h.kind with
  | .level => h.name = "syntax"
  | .package => h.name = "package" ∧ IsName h.value.toList ∧ h.value.toList.head? ≠ some '.'
  | .importing => h.name = h.value
  | .option => IsName h.name.toList

/-- A document as it can be written. -/
structure Document.Printable (d : Document) : Prop where
  headers : ∀ h ∈ d.headers, h.Printable
  messages : ∀ m ∈ d.messages, Declaration.Printable FieldDecl.Printable m
  enums : ∀ e ∈ d.enums, Declaration.Printable ConstantDecl.Printable e

/-- All of `ts` but marks for the end of the file were lexemes. -/
def Lexemes (ts : List Token) : Prop :=
  ∀ t ∈ ts, t.kind ≠ .endOfFile → t.IsLexeme

namespace ReadDocumentLemmas

/-! ## Comments -/

theorem tidy_nil : Tidy [] :=
  ⟨nofun, nofun, nofun⟩

variable {p : Char → Bool} {cs : List Char} {t : Token} {ts input rest : List Token}
  {before : List String}

theorem front_dropWhile {c : Char} (h : (cs.dropWhile p).head? = some c) : p c = false := by
  have hnot := List.head?_dropWhile_not p cs
  rw [h] at hnot
  simpa using hnot

theorem mem_trimWhile {c : Char} (h : c ∈ trimWhile p cs) : c ∈ cs := by
  rw [trimWhile, List.mem_reverse] at h
  have hback := (List.dropWhile_sublist p).mem h
  rw [List.mem_reverse] at hback
  exact (List.dropWhile_sublist p).mem hback

theorem tidy_trimBlanks (h : '\n' ∉ cs) : Tidy (trimBlanks cs) where
  newline := mt mem_trimWhile h
  front := by
    intro c hc
    have hsplit : cs.dropWhile isBlank = trimBlanks cs ++
        ((cs.dropWhile isBlank).reverse.takeWhile isBlank).reverse := by
      rw [trimBlanks, trimWhile, ← List.reverse_append, List.takeWhile_append_dropWhile,
        List.reverse_reverse]
    have hhead : (cs.dropWhile isBlank).head? = some c := by
      rw [hsplit, List.head?_append, hc]
      rfl
    exact front_dropWhile hhead
  back := by
    intro c hc
    rw [trimBlanks, trimWhile, List.getLast?_reverse] at hc
    exact front_dropWhile hc

theorem dropWhile_of_front (h : ∀ c, cs.head? = some c → p c = false) : cs.dropWhile p = cs := by
  cases cs with
  | nil => rfl
  | cons c cs => simp [h c rfl]

/-- The space behind the slashes of a line comment is no part of what it says. -/
theorem trimBlanks_space (h : Tidy cs) : trimBlanks (' ' :: cs) = cs := by
  have hspace : (' ' :: cs).dropWhile isBlank = cs := by
    rw [List.dropWhile_cons_of_pos (by decide), dropWhile_of_front h.front]
  have hback : cs.reverse.dropWhile isBlank = cs.reverse :=
    dropWhile_of_front fun c hc => h.back c (by rwa [List.head?_reverse] at hc)
  rw [trimBlanks, trimWhile, hspace, hback, List.reverse_reverse]

theorem tidy_join {texts : List (List Char)} (h : ∀ text ∈ texts, Tidy text ∧ text ≠ []) :
    Tidy (Document.joinWithSpaces texts) ∧
      (texts ≠ [] → Document.joinWithSpaces texts ≠ []) := by
  rw [Document.joinWithSpaces]
  induction texts with
  | nil => exact ⟨tidy_nil, fun hne => absurd rfl hne⟩
  | cons text texts ih =>
    rw [List.forall_mem_cons] at h
    obtain ⟨⟨htext, hne⟩, hothers⟩ := h
    cases texts with
    | nil =>
      rw [List.intercalate_singleton]
      exact ⟨htext, fun _ => hne⟩
    | cons next texts =>
      obtain ⟨hrest, hrestne⟩ := ih hothers
      have hfront : ∃ c cs, text = c :: cs := List.exists_cons_of_ne_nil hne
      have hback : ∃ c, ([' '].intercalate (next :: texts)).getLast? = some c :=
        Option.ne_none_iff_exists'.1 (mt List.getLast?_eq_none_iff.1 (hrestne (by simp)))
      obtain ⟨first, cs, rfl⟩ := hfront
      obtain ⟨last, hlast⟩ := hback
      rw [List.intercalate_cons_cons]
      refine ⟨⟨?_, ?_, ?_⟩, by simp⟩
      · simp only [List.mem_append, not_or]
        exact ⟨⟨htext.newline, by decide⟩, hrest.newline⟩
      · exact htext.front
      · intro c hc
        rw [List.getLast?_append, hlast] at hc
        exact hrest.back c (hlast.trans hc)

theorem tidy_commentLine {line : List Char} (h : '\n' ∉ line) : Tidy (Document.commentLine line) :=
  tidy_trimBlanks fun hmem => h (mem_trimWhile ((List.dropWhile_sublist _).mem hmem))

theorem tidy_blockText (cs : List Char) : Tidy (Document.blockText cs) := by
  refine (tidy_join fun text htext => ?_).1
  obtain ⟨hmem, hne⟩ := List.mem_filter.1 htext
  obtain ⟨line, hline, rfl⟩ := List.mem_map.1 hmem
  exact ⟨tidy_commentLine (LocationLemmas.not_mem_of_mem_split hline), by simpa using hne⟩

theorem tidy_commentText (ht : t.IsLexeme) (hkind : t.kind = .comment) :
    Tidy (Document.commentText t.text).toList := by
  rw [Document.commentText, String.toList_ofList]
  rcases Token.newline_of_kind ht hkind with ⟨rest, hrest⟩ | hnewline
  · rw [hrest]
    exact tidy_blockText rest
  · unfold Document.commentChars
    split
    · exact tidy_blockText _
    · exact tidy_trimBlanks fun hmem => hnewline ((List.dropWhile_sublist _).mem hmem)

theorem tidy_joinComments {words : List String} (h : ∀ word ∈ words, Tidy word.toList) {c : String}
    (hc : Document.joinComments words = some c) : Tidy c.toList ∧ c.toList ≠ [] := by
  have htexts (text : List Char)
      (htext : text ∈ (words.filter (!·.isEmpty)).map String.toList) : Tidy text ∧ text ≠ [] := by
    obtain ⟨word, hword, rfl⟩ := List.mem_map.1 htext
    obtain ⟨hmem, hnonempty⟩ := List.mem_filter.1 hword
    exact ⟨h word hmem, by simpa using hnonempty⟩
  obtain ⟨htidy, hsome⟩ := tidy_join htexts
  rw [Document.joinComments] at hc
  cases hfilter : words.filter (!·.isEmpty) with
  | nil =>
    rw [hfilter] at hc
    cases hc
  | cons word others =>
    rw [hfilter] at hc htidy hsome
    cases hc
    rw [String.toList_ofList]
    exact ⟨htidy, hsome nofun⟩

/-! ## Tokens -/

theorem lexemes_cons : Lexemes (t :: ts) ↔ (t.kind ≠ .endOfFile → t.IsLexeme) ∧ Lexemes ts :=
  List.forall_mem_cons

theorem lexemes_append {us : List Token} : Lexemes (ts ++ us) ↔ Lexemes ts ∧ Lexemes us :=
  List.forall_mem_append

theorem lexemes_of_scanned (h : Scanned ts) : Lexemes ts := by
  induction h with
  | last hkind => exact lexemes_cons.2 ⟨fun hne => absurd hkind hne, nofun⟩
  | cons hlexeme _ ih => exact lexemes_cons.2 ⟨fun _ => hlexeme, ih⟩

theorem isName_of_lexemes (h : Lexemes ts) (ht : t ∈ ts) (hkind : t.kind = .identifier) :
    IsName t.text.toList :=
  Token.isName_of_kind (h t ht (by simp [hkind])) hkind

theorem tidy_said {cs : List Token} (h : Lexemes cs) (hcs : Comments cs) :
    ∀ word ∈ said cs, Tidy word.toList := by
  intro word hword
  obtain ⟨t, ht, rfl⟩ := List.mem_map.1 hword
  exact tidy_commentText (h t ht (by simp [hcs t ht])) (hcs t ht)

theorem tidy_behind {line : Nat} {words : List String} (hinput : Lexemes input)
    (h : Behind line input words rest) : ∀ word ∈ words, Tidy word.toList := by
  cases h with
  | @comment t _ hkind _ =>
    have hsingle : Lexemes [t] := lexemes_cons.2 ⟨(lexemes_cons.1 hinput).1, nofun⟩
    exact tidy_said hsingle fun t' ht' => List.mem_singleton.1 ht' ▸ hkind
  | nothing => nofun

/-! ## Members of definitions -/

theorem fitsInt32_of_int32? {text : String} {n : Int} (h : Text.int32? text = some n) :
    FitsInt32 n := by
  simpa [FitsInt32] using (Option.filter_eq_some_iff.1 h).2

theorem printable_of_numbered {c : ConstantDecl} (hinput : Lexemes input)
    (hbefore : ∀ word ∈ before, Tidy word.toList) (h : Numbered before input c rest) :
    c.toDescribed.Printable ∧ FitsInt32 c.number := by
  cases h with
  | @mk name equals number semicolon options input _ _ n behind hname _ _ hvalue _ _ hbehind =>
    have hafter : Lexemes input := by
      simp only [List.cons_append, lexemes_cons, lexemes_append] at hinput
      exact hinput.2.2.2.2.2
    refine ⟨⟨?_, fun c hc => tidy_joinComments ?_ hc⟩, fitsInt32_of_int32? hvalue⟩
    · exact isName_of_lexemes hinput List.mem_cons_self hname
    · exact List.forall_mem_append.2 ⟨hbefore, tidy_behind hafter hbehind⟩

theorem printable_of_constant {c : ConstantDecl} (hinput : Lexemes input)
    (hbefore : ∀ word ∈ before, Tidy word.toList) (hstart : NotAhead StartsOther input)
    (h : Numbered before input c rest) : c.Printable := by
  obtain ⟨hdescribed, hnumber⟩ := printable_of_numbered hinput hbefore h
  refine ⟨hdescribed, hnumber, ?_⟩
  cases h with
  | @mk name _ _ _ _ _ _ _ _ _ hname =>
    intro hmem
    have hother : StartsOther name := by
      rcases List.mem_cons.1 hmem with hoption | hmem
      · exact .inl ⟨hname, hoption⟩
      rcases List.mem_cons.1 hmem with hreserved | hmem
      · exact .inr (.inl ⟨hname, hreserved⟩)
      · exact .inr (.inr ⟨_, hmem, hname, rfl⟩)
    exact hstart name rfl hother

theorem printable_of_fieldType {cardinality : Cardinality} {phrase : List Token} {expr : TypeExpr}
    (hphrase : Lexemes phrase) (h : Grammar.FieldType cardinality phrase expr) :
    expr.Printable cardinality := by
  cases h with
  | named hkind hnot => exact ⟨isName_of_lexemes hphrase (by simp) hkind, hnot⟩
  | map _ _ hkey _ hvalue _ =>
    exact ⟨isName_of_lexemes hphrase (by simp) hkey, isName_of_lexemes hphrase (by simp) hvalue,
      rfl⟩

theorem lexemes_of_label {cardinality : Cardinality} (hinput : Lexemes input)
    (h : Label input cardinality rest) : Lexemes rest := by
  cases h with
  | repeated => exact (lexemes_cons.1 hinput).2
  | optional => exact (lexemes_cons.1 hinput).2
  | required => exact (lexemes_cons.1 hinput).2
  | nothing => exact hinput

theorem printable_of_field {f : FieldDecl} (hinput : Lexemes input)
    (hbefore : ∀ word ∈ before, Tidy word.toList) (h : Grammar.Field before input f rest) :
    f.Printable := by
  cases h with
  | mk hlabel htyped htype hnumbered =>
    have hrest := lexemes_of_label hinput hlabel
    rw [htyped, lexemes_append] at hrest
    obtain ⟨hdescribed, hnumber⟩ := printable_of_numbered hrest.2 hbefore hnumbered
    exact ⟨hdescribed, hnumber, printable_of_fieldType hrest.1 htype⟩

/-! ## Definitions -/

section Definitions

variable {μ : Type} {Member : List String → List Token → μ → List Token → Prop} {P : μ → Prop}

theorem printable_of_body {ts rest : List Token} {settings : List (String × String)}
    {members : List μ} (hts : Lexemes ts) (h : Body Member ts settings members rest)
    (hstarts : ∀ {before input m rest}, Member before input m rest →
      Document.StartsNamed input rest)
    (hmember : ∀ {before input m rest}, Lexemes input → (∀ word ∈ before, Tidy word.toList) →
      NotAhead StartsOther input → Member before input m rest → P m) : ∀ m ∈ members, P m := by
  induction h with
  | close => exact nofun
  | option _ _ _ _ _ ih =>
    rw [lexemes_append, lexemes_cons] at hts
    exact ih hts.2.2
  | reserved _ _ _ _ _ ih =>
    rw [lexemes_append, lexemes_cons] at hts
    exact ih hts.2.2
  | member hcs hstart hm _ ih =>
    rw [lexemes_append] at hts
    have hmiddle := hts.2
    obtain ⟨t, front, hinput, -⟩ := hstarts hm
    rw [hinput, lexemes_append] at hmiddle
    exact List.forall_mem_cons.2
      ⟨hmember hts.2 (tidy_said hts.1 hcs) hstart hm, ih hmiddle.2⟩

theorem printable_of_definition {before : List String} {input rest : List Token}
    {d : Declaration μ} (hinput : Lexemes input) (hbefore : ∀ word ∈ before, Tidy word.toList)
    (h : Grammar.Definition Member before input d rest)
    (hstarts : ∀ {before input m rest}, Member before input m rest →
      Document.StartsNamed input rest)
    (hmember : ∀ {before input m rest}, Lexemes input → (∀ word ∈ before, Tidy word.toList) →
      NotAhead StartsOther input → Member before input m rest → P m) : d.Printable P := by
  cases h with
  | @mk name brace input _ _ behind _ _ hname _ hbehind hbody =>
    have hafter : Lexemes input := (lexemes_cons.1 (lexemes_cons.1 hinput).2).2
    have hmiddle := hafter
    obtain ⟨front, hfront⟩ := Document.exists_front_of_behind hbehind
    rw [hfront, lexemes_append] at hmiddle
    refine ⟨⟨?_, fun c hc => tidy_joinComments ?_ hc⟩, ?_⟩
    · exact isName_of_lexemes hinput List.mem_cons_self hname
    · exact List.forall_mem_append.2 ⟨hbefore, tidy_behind hafter hbehind⟩
    · exact printable_of_body hmiddle.2 hbody hstarts hmember

end Definitions

/-! ## Files -/

theorem printable_of_headerLine {h : Header} (hts : Lexemes ts) (hline : HeaderLine ts h) :
    h.Printable := by
  cases hline with
  | level => exact rfl
  | @package _ name _ _ hname _ =>
    have hvalue := Token.isName_dropWhile_dot (isName_of_lexemes hts (by simp) hname)
    show _ ∧ IsName (String.ofList _).toList ∧ (String.ofList _).toList.head? ≠ some '.'
    rw [String.toList_ofList]
    exact ⟨rfl, hvalue⟩
  | importing => exact rfl
  | option _ hsetting _ =>
    cases hsetting with
    | mk hname _ _ => exact isName_of_lexemes hts (by simp) hname

theorem printable_of_file {d : Document} (hts : Lexemes ts) (h : File ts d) : d.Printable := by
  induction h with
  | done => exact ⟨nofun, nofun, nofun⟩
  | header hcs hheader _ ih =>
    rw [lexemes_append, lexemes_append] at hts
    obtain ⟨hheaders, hmessages, henums⟩ := ih hts.2
    exact ⟨List.forall_mem_cons.2 ⟨printable_of_headerLine hts.1.2 hheader, hheaders⟩, hmessages,
      henums⟩
  | message hcs hword hm _ ih =>
    rw [lexemes_append, lexemes_cons] at hts
    have hrest := hts.2.2
    obtain ⟨t, front, hinput, -⟩ :=
      Document.startsNamed_of_definition Document.startsNamed_of_field hm
    rw [hinput, lexemes_append] at hrest
    obtain ⟨hheaders, hmessages, henums⟩ := ih hrest.2
    have hprintable := printable_of_definition hts.2.2 (tidy_said hts.1 hcs) hm
      Document.startsNamed_of_field fun hinput hbefore _ => printable_of_field hinput hbefore
    exact ⟨hheaders, List.forall_mem_cons.2 ⟨hprintable, hmessages⟩, henums⟩
  | enumeration hcs hword he _ ih =>
    rw [lexemes_append, lexemes_cons] at hts
    have hrest := hts.2.2
    obtain ⟨t, front, hinput, -⟩ :=
      Document.startsNamed_of_definition Document.startsNamed_of_numbered he
    rw [hinput, lexemes_append] at hrest
    obtain ⟨hheaders, hmessages, henums⟩ := ih hrest.2
    have hprintable := printable_of_definition hts.2.2 (tidy_said hts.1 hcs) he
      Document.startsNamed_of_numbered printable_of_constant
    exact ⟨hheaders, hmessages, List.forall_mem_cons.2 ⟨hprintable, henums⟩⟩

end ReadDocumentLemmas

open ReadDocumentLemmas in
/-- A document that was read from a text can be written as one. -/
theorem Document.printable_of_ofText {text : String} {d : Document} (h : ofText text = .ok d) :
    d.Printable := by
  obtain ⟨ts, hts, hread⟩ := ofText_eq_ok_iff.1 h
  have hscanned := Token.scanned_of_tokenize hts
  exact printable_of_file (lexemes_of_scanned hscanned) ((ofTokens_eq_ok_iff hscanned d).1 hread)

end SchemaGen
