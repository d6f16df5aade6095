import SchemaGen.Proofs.ReadDocument
import SchemaGen.Proofs.Rendering

/-!
# Reading the canonical text of a document

The canonical text of a document that was read is read as the same document again, but for the
positions of its declarations. The tokens of the text are the words of its lines, and from these the
grammar derives the document declaration by declaration. Positions matter at one place: a comment on
the line of a semicolon or an opening brace would belong to what stands before it, and the lines of
a canonical text keep them apart.

Results:
1. `legible_of_printable`: the lines of such a document can be read back.
2. `exists_file_of_laid`: their tokens derive the document.
3. `ofText_render`: reading a text, writing the document and reading it again gives the document.
-/

namespace SchemaGen

open Grammar
open Text (quote)
open Token (IsName IsWord Laid Legible Row Writes kindOf)

/-! ## Definitions -/

/-- A constant wherever it stands. -/
def ConstantDecl.unplaced (c : ConstantDecl) : ConstantDecl :=
  { c with position := .start }

/-- A field wherever it stands. -/
def FieldDecl.unplaced (f : FieldDecl) : FieldDecl :=
  { f with position := .start }

/-- A definition wherever it and its members stand. -/
def Declaration.unplaced {μ : Type} (erase : μ → μ) (d : Declaration μ) : Declaration μ :=
  { d with
    members := d.members.map erase
    position := .start }

/-- A document wherever its declarations stand. -/
def Document.unplaced (d : Document) : Document where
  headers := d.headers
  messages := d.messages.map (Declaration.unplaced FieldDecl.unplaced)
  enums := d.enums.map (Declaration.unplaced ConstantDecl.unplaced)

namespace RoundTripLemmas

/-! ## 1. Lines -/

/-- All of `words` can stand in a line. -/
def Words (words : List String) : Prop :=
  ∀ w ∈ words, IsWord w.toList

theorem words_nil : Words [] := nofun

variable {w : String} {d : Described} {cardinality : Cardinality} {line : Nat} {ts : List Token}
  {t : Token}

theorem words_cons {words : List String} (hw : IsWord w.toList) (hwords : Words words) :
    Words (w :: words) :=
  List.forall_mem_cons.2 ⟨hw, hwords⟩

variable {others : List String} {h : Header} {type : TypeExpr} {lines : List (List String)}
  {c : String}

theorem words_append {words : List String} (hwords : Words words) (hothers : Words others) :
    Words (words ++ others) :=
  List.forall_mem_append.2 ⟨hwords, hothers⟩

theorem isWord_keyword (h : Token.nameLength? w.toList = some w.toList.length) : IsWord w.toList :=
  Token.isWord_name h

theorem isWord_mark {c : Char} (hw : w.toList = [c]) (hc : Token.isSymbol c = true) :
    IsWord w.toList :=
  hw ▸ Token.isWord_symbol hc

theorem words_semicolon : Words [";"] :=
  words_cons (isWord_mark rfl (by decide)) words_nil

theorem words_markWords (ignored : Bool) : Words (markWords ignored) := by
  cases ignored with
  | false => exact words_nil
  | true =>
    exact words_cons (isWord_mark rfl (by decide)) <| words_cons (isWord_keyword (by decide)) <|
      words_cons (isWord_mark rfl (by decide)) <| words_cons (isWord_keyword (by decide)) <|
      words_cons (isWord_mark rfl (by decide)) words_nil

theorem words_numberedWords (hd : d.Printable) (number : Int) : Words (numberedWords d number) := by
  have hfront : Words [d.name, "=", toString number] :=
    words_cons (Token.isWord_name hd.name) <| words_cons (isWord_mark rfl (by decide)) <|
      words_cons (Token.isWord_decimal number) words_nil
  exact words_append (words_append hfront (words_markWords d.ignored)) words_semicolon

theorem words_header (hh : h.Printable) : Words h.words := by
  obtain ⟨kind, name, value⟩ := h
  cases kind with
  | level =>
    exact words_cons (isWord_keyword (by decide)) <| words_cons (isWord_mark rfl (by decide)) <|
      words_cons (Token.isWord_quote value) words_semicolon
  | package =>
    exact words_cons (isWord_keyword (by decide)) <| words_cons (Token.isWord_name hh.2.1)
      words_semicolon
  | importing =>
    exact words_cons (isWord_keyword (by decide)) <| words_cons (Token.isWord_quote value)
      words_semicolon
  | option =>
    exact words_cons (isWord_keyword (by decide)) <| words_cons (Token.isWord_name hh) <|
      words_cons (isWord_mark rfl (by decide)) <| words_cons (Token.isWord_quote value)
      words_semicolon

theorem words_type (h : type.Printable cardinality) : Words type.words := by
  cases type with
  | named name => exact words_cons (Token.isWord_name h.1) words_nil
  | map key value =>
    exact words_cons (isWord_keyword (by decide)) <| words_cons (isWord_mark rfl (by decide)) <|
      words_cons (Token.isWord_name h.1) <| words_cons (isWord_mark rfl (by decide)) <|
      words_cons (Token.isWord_name h.2.1) <| words_cons (isWord_mark rfl (by decide)) words_nil

theorem legible_commentLines (hd : d.Printable) : ∀ words ∈ d.commentLines, Legible words := by
  intro words hwords
  rw [Described.commentLines] at hwords
  split at hwords
  · next comment hcomment =>
    obtain rfl := List.mem_singleton.1 hwords
    exact .comment (hd.comment comment hcomment).1.newline
  · cases hwords

theorem legible_constant {c : ConstantDecl} (hc : c.Printable) :
    ∀ words ∈ c.lines, Legible words := by
  refine List.forall_mem_append.2 ⟨legible_commentLines hc.described, ?_⟩
  intro words hwords
  obtain rfl := List.mem_singleton.1 hwords
  exact .words (words_numberedWords hc.described c.number)

theorem legible_field {f : FieldDecl} (hf : f.Printable) : ∀ words ∈ f.lines, Legible words := by
  refine List.forall_mem_append.2 ⟨legible_commentLines hf.described, ?_⟩
  intro words hwords
  obtain rfl := List.mem_singleton.1 hwords
  have hlabel : IsWord f.cardinality.label.toList := by
    cases f.cardinality with
    | singular => exact isWord_keyword (by decide)
    | repeated => exact isWord_keyword (by decide)
  exact .words (words_cons hlabel
    (words_append (words_type hf.type) (words_numberedWords hf.described f.number)))

theorem legible_declaration {μ : Type} {P : μ → Prop} {lines : μ → List (List String)}
    {keyword : String} (hkeyword : IsWord keyword.toList)
    (hlines : ∀ {m}, P m → ∀ words ∈ lines m, Legible words) {d : Declaration μ}
    (hd : d.Printable P) : ∀ words ∈ d.lines keyword lines, Legible words := by
  have hopening : Words [keyword, d.name, "\x7b"] :=
    words_cons hkeyword <| words_cons (Token.isWord_name hd.described.name) <|
      words_cons (isWord_mark rfl (by decide)) words_nil
  have hclosing : Words ["\x7d"] := words_cons (isWord_mark rfl (by decide)) words_nil
  have hsetting : Words ["option", "ignore", "=", "true", ";"] :=
    words_cons (isWord_keyword (by decide)) <| words_cons (isWord_keyword (by decide)) <|
      words_cons (isWord_mark rfl (by decide)) <| words_cons (isWord_keyword (by decide))
      words_semicolon
  rw [Declaration.lines]
  simp only [List.forall_mem_append, List.forall_mem_cons]
  refine ⟨⟨⟨legible_commentLines hd.described, .words hopening, ?_⟩, ?_⟩, .words hclosing, nofun⟩
  · split
    · exact List.forall_mem_cons.2 ⟨.words hsetting, nofun⟩
    · exact nofun
  · intro words hwords
    obtain ⟨m, hm, hwords⟩ := List.mem_flatMap.1 hwords
    exact hlines (hd.members m hm) words hwords

theorem legible_of_printable {d : Document} (hd : d.Printable) :
    ∀ words ∈ d.lines, Legible words := by
  rw [Document.lines]
  simp only [List.forall_mem_append]
  refine ⟨⟨?_, ?_⟩, ?_⟩
  · intro words hwords
    obtain ⟨h, hh, rfl⟩ := List.mem_map.1 hwords
    have hheader := words_header (hd.headers h hh)
    obtain ⟨w, ws, hcons⟩ : ∃ w ws, h.words = w :: ws := by
      rw [Header.words]
      split <;> exact ⟨_, _, rfl⟩
    rw [hcons] at hheader ⊢
    exact .words hheader
  · intro words hwords
    obtain ⟨m, hm, hwords⟩ := List.mem_flatMap.1 hwords
    exact legible_declaration (isWord_keyword (by decide)) legible_field (hd.messages m hm) words
      hwords
  · intro words hwords
    obtain ⟨e, he, hwords⟩ := List.mem_flatMap.1 hwords
    exact legible_declaration (isWord_keyword (by decide)) legible_constant (hd.enums e he) words
      hwords

/-! ## 2. Derivations -/

theorem row_nil_inv (h : Row line [] ts) : ts = [] := by
  cases h
  rfl

theorem row_cons_inv {words : List String} (h : Row line (w :: words) ts) :
    ∃ t rest, ts = t :: rest ∧ Writes line w t ∧ Row line words rest := by
  cases h with
  | cons hword hwords => exact ⟨_, _, rfl, hword, hwords⟩

theorem row_append_inv {words : List String} (h : Row line (words ++ others) ts) :
    ∃ front back, ts = front ++ back ∧ Row line words front ∧ Row line others back := by
  induction words generalizing ts with
  | nil => exact ⟨[], ts, rfl, .nil, h⟩
  | cons w words ih =>
    obtain ⟨t, rest, rfl, hword, hrest⟩ := row_cons_inv h
    obtain ⟨front, back, rfl, hfront, hback⟩ := ih hrest
    exact ⟨t :: front, back, rfl, .cons hword hfront, hback⟩

theorem laid_cons_inv {words : List String} (h : Laid line (words :: lines) ts) :
    ∃ row rest, ts = row ++ rest ∧ Row line words row ∧ Laid (line + 1) lines rest := by
  cases h with
  | row hrow hrest => exact ⟨_, _, rfl, hrow, hrest⟩

/-- No comment stands on a line before the first one. -/
theorem notAhead_of_laid {first : Nat} (h : Laid first lines ts) (hline : line < first) :
    NotAhead (fun t => t.kind = .comment ∧ t.position.line = line) ts := by
  induction h with
  | done hmark =>
    intro t ht hcomment
    obtain rfl := Option.some.inj ht
    exact absurd (hmark.symm.trans hcomment.1) nofun
  | row hrow _ ih =>
    cases hrow with
    | nil => exact ih (by omega)
    | cons hword _ =>
      intro t ht hcomment
      obtain rfl := Option.some.inj ht
      have hfirst := hword.line
      omega

theorem keyword_of_writes (h : Writes line w t) (hw : kindOf w.toList = .identifier) :
    Keyword w t :=
  ⟨h.kind.trans hw, h.text⟩

theorem symbol_of_writes (h : Writes line w t) (hw : kindOf w.toList = .symbol) : Symbol w t :=
  ⟨h.kind.trans hw, h.text⟩

theorem kindOf_name {w : List Char} (h : IsName w) : kindOf w = .identifier := by
  obtain ⟨c, cs, rfl, hstart⟩ := Token.exists_start_of_isName h
  obtain ⟨hslash, hquote, hminus, -, hnone, -⟩ := Token.only_name hstart
  have hdigit : c.isDigit = false := by
    rw [← Bool.not_eq_true]
    intro hdigit
    obtain ⟨-, -, -, -, hsome, -⟩ := Token.only_integer hdigit
    exact absurd (hnone.symm.trans hsome) nofun
  simp [kindOf, hslash, hquote, hminus, hdigit, hstart]

theorem kindOf_quote (s : String) : kindOf (quote s).toList = .string := by
  rw [quote, String.toList_ofList]
  rfl

theorem kindOf_decimal (n : Int) : kindOf (toString n).toList = .integer := by
  cases n with
  | ofNat n =>
    obtain ⟨c, cs, hcs, hdigit, -⟩ := Text.exists_cons_decimal n
    obtain ⟨hslash, hquote, -⟩ := Token.only_integer hdigit
    rw [Int.ofNat_eq_natCast, Text.toList_toString_nat, hcs]
    simp [kindOf, hslash, hquote, hdigit]
  | negSucc n =>
    rw [Text.toList_toString_neg]
    rfl

/-! ### Comments -/

theorem commentText_commentWord (h : Tidy c.toList) : Document.commentText (commentWord c) = c := by
  rw [Document.commentText, commentWord, String.toList_append]
  show String.ofList (Text.trimBlanks (' ' :: c.toList)) = c
  rw [ReadDocumentLemmas.trimBlanks_space h, String.ofList_toList]

theorem joinComments_singleton (h : c.toList ≠ []) : Document.joinComments [c] = some c := by
  have hc : c ≠ "" := by
    rintro rfl
    exact h rfl
  simp [Document.joinComments, Document.joinWithSpaces, hc]

/-- The line before a declaration gives its comment back. -/
theorem exists_comments_of_laid (hd : d.Printable) {more : List (List String)}
    (h : Laid line (d.commentLines ++ more) ts) :
    ∃ cs rest next, ts = cs ++ rest ∧ Comments cs ∧
      Document.joinComments (said cs) = d.comment ∧ Laid next more rest := by
  rw [Described.commentLines] at h
  split at h
  · next c hc =>
    obtain ⟨htidy, hne⟩ := hd.comment c hc
    obtain ⟨row, rest, rfl, hrow, hrest⟩ := laid_cons_inv h
    obtain ⟨t, _, rfl, ht, hrow⟩ := row_cons_inv hrow
    obtain rfl := row_nil_inv hrow
    have hkind : t.kind = .comment := by
      rw [ht.kind, commentWord, String.toList_append]
      rfl
    refine ⟨[t], rest, _, rfl, fun t' ht' => List.mem_singleton.1 ht' ▸ hkind, ?_, hrest⟩
    show Document.joinComments [Document.commentText t.text] = _
    rw [ht.text, commentText_commentWord htidy, joinComments_singleton hne, hc]
  · next hc => exact ⟨[], ts, line, rfl, List.forall_mem_nil _, hc.symm, h⟩

/-! ### Members -/

theorem setting_of_row {name value : String} (hname : IsName name.toList)
    (hvalue : IsName value.toList) (h : Row line [name, "=", value] ts) :
    Setting ts (name, value) := by
  obtain ⟨first, _, rfl, hfirst, h⟩ := row_cons_inv h
  obtain ⟨equals, _, rfl, hequals, h⟩ := row_cons_inv h
  obtain ⟨last, _, rfl, hlast, h⟩ := row_cons_inv h
  obtain rfl := row_nil_inv h
  have hsetting : Setting [first, equals, last] (first.text, last.text) :=
    .mk (hfirst.kind.trans (kindOf_name hname)) (symbol_of_writes hequals (by decide))
      (.identifier (hlast.kind.trans (kindOf_name hvalue)))
  rwa [hfirst.text, hlast.text] at hsetting

theorem exists_options_of_row {ignored : Bool} (h : Row line (markWords ignored) ts) :
    ∃ settings, Options ts settings ∧ ignores settings = ignored := by
  cases ignored with
  | false =>
    obtain rfl := row_nil_inv h
    exact ⟨[], .nothing, rfl⟩
  | true =>
    obtain ⟨opening, _, rfl, hopening, h⟩ := row_cons_inv h
    replace h : Row line (["ignore", "=", "true"] ++ ["]"]) _ := h
    obtain ⟨setting, _, rfl, hsetting, h⟩ := row_append_inv h
    obtain ⟨closing, _, rfl, hclosing, h⟩ := row_cons_inv h
    obtain rfl := row_nil_inv h
    exact ⟨[("ignore", "true")], .settings (symbol_of_writes hopening (by decide))
      (.one (setting_of_row rfl rfl hsetting)) (symbol_of_writes hclosing (by decide)), by decide⟩

theorem exists_numbered_of_row (hd : d.Printable) {number : Int} (hnumber : FitsInt32 number)
    {row rest : List Token} (hrow : Row line (numberedWords d number) row)
    (hrest : NotAhead (fun t => t.kind = .comment ∧ t.position.line = line) rest)
    (before : List String) :
    ∃ position, Numbered before (row ++ rest)
      ⟨⟨d.name, Document.joinComments before, d.ignored⟩, number, position⟩ rest := by
  obtain ⟨front, _, rfl, hfront, h⟩ := row_append_inv hrow
  obtain ⟨semicolon, _, rfl, hsemicolon, h⟩ := row_cons_inv h
  obtain rfl := row_nil_inv h
  obtain ⟨_, options, rfl, hfront, hoptions⟩ := row_append_inv hfront
  obtain ⟨name, _, rfl, hname, h⟩ := row_cons_inv hfront
  obtain ⟨equals, _, rfl, hequals, h⟩ := row_cons_inv h
  obtain ⟨digits, _, rfl, hdigits, h⟩ := row_cons_inv h
  obtain rfl := row_nil_inv h
  obtain ⟨settings, hsettings, hignores⟩ := exists_options_of_row hoptions
  have hvalue : Text.int32? digits.text = some number := by
    rw [hdigits.text]
    exact Text.int32?_toString hnumber
  rw [← hsemicolon.line] at hrest
  have hnumbered : Numbered before _ _ rest :=
    .mk (hname.kind.trans (kindOf_name hd.name)) (symbol_of_writes hequals (by decide))
      (hdigits.kind.trans (kindOf_decimal number)) hvalue hsettings
      (symbol_of_writes hsemicolon (by decide)) (.nothing hrest)
  refine ⟨name.position, ?_⟩
  rw [hname.text, hignores, List.append_nil] at hnumbered
  simpa using hnumbered

theorem fieldType_of_row (htype : type.Printable cardinality) (h : Row line type.words ts) :
    Grammar.FieldType cardinality ts type := by
  cases type with
  | named name =>
    obtain ⟨t, _, rfl, ht, h⟩ := row_cons_inv h
    obtain rfl := row_nil_inv h
    have hnamed : Grammar.FieldType cardinality [t] (.named t.text) :=
      .named (ht.kind.trans (kindOf_name htype.1)) (ht.text ▸ htype.2)
    rwa [ht.text] at hnamed
  | map key value =>
    obtain ⟨hkeyName, hvalueName, rfl⟩ := htype
    obtain ⟨word, _, rfl, hword, h⟩ := row_cons_inv h
    obtain ⟨less, _, rfl, hless, h⟩ := row_cons_inv h
    obtain ⟨first, _, rfl, hfirst, h⟩ := row_cons_inv h
    obtain ⟨comma, _, rfl, hcomma, h⟩ := row_cons_inv h
    obtain ⟨second, _, rfl, hsecond, h⟩ := row_cons_inv h
    obtain ⟨greater, _, rfl, hgreater, h⟩ := row_cons_inv h
    obtain rfl := row_nil_inv h
    have hmap : Grammar.FieldType .singular [word, less, first, comma, second, greater]
        (.map first.text second.text) :=
      .map (keyword_of_writes hword (by decide)) (symbol_of_writes hless (by decide))
        (hfirst.kind.trans (kindOf_name hkeyName)) (symbol_of_writes hcomma (by decide))
        (hsecond.kind.trans (kindOf_name hvalueName)) (symbol_of_writes hgreater (by decide))
    rwa [hfirst.text, hsecond.text] at hmap

theorem label_of_writes (h : Writes line cardinality.label t) (rest : List Token) :
    Label (t :: rest) cardinality rest := by
  cases cardinality with
  | singular => exact .optional (keyword_of_writes h (by decide))
  | repeated => exact .repeated (keyword_of_writes h (by decide))

theorem not_startsOther (h : t.text ∉ reservedWords) : ¬ StartsOther t := by
  rintro (hword | hword | ⟨word, hmem, hword⟩)
  · exact h (by rw [hword.2]; decide)
  · exact h (by rw [hword.2]; decide)
  · exact h (by rw [hword.2]; exact List.mem_cons_of_mem _ (List.mem_cons_of_mem _ hmem))

section Definitions

variable {μ : Type} {Member : List String → List Token → μ → List Token → Prop}
  {lines : μ → List (List String)} {erase : μ → μ}

/-- The lines of the member `m` derive it again. -/
def ReadBack (Member : List String → List Token → μ → List Token → Prop)
    (lines : μ → List (List String)) (erase : μ → μ) (m : μ) : Prop :=
  ∀ {line : Nat} {more : List (List String)} {ts : List Token}, Laid line (lines m ++ more) ts →
    ∃ cs input m' rest next, ts = cs ++ input ∧ Comments cs ∧ NotAhead StartsOther input ∧
      Member (said cs) input m' rest ∧ erase m' = erase m ∧ Laid next more rest

theorem readBack_constant {c : ConstantDecl} (hc : c.Printable) :
    ReadBack Numbered ConstantDecl.lines ConstantDecl.unplaced c := by
  intro line more ts h
  rw [ConstantDecl.lines, List.append_assoc] at h
  obtain ⟨cs, _, next, rfl, hcs, hcomment, h⟩ := exists_comments_of_laid hc.described h
  obtain ⟨row, rest, rfl, hrow, hrest⟩ := laid_cons_inv h
  obtain ⟨position, hnumbered⟩ := exists_numbered_of_row hc.described hc.number hrow
    (notAhead_of_laid hrest (Nat.lt_succ_self next)) (said cs)
  obtain ⟨name, _, rfl, hname, -⟩ := row_cons_inv hrow
  refine ⟨cs, _, _, rest, _, rfl, hcs, ?_, hnumbered, ?_, hrest⟩
  · intro t ht
    obtain rfl := Option.some.inj ht
    exact not_startsOther (hname.text ▸ hc.name)
  · rw [hcomment]
    rfl

theorem readBack_field {f : FieldDecl} (hf : f.Printable) :
    ReadBack Grammar.Field FieldDecl.lines FieldDecl.unplaced f := by
  intro line more ts h
  rw [FieldDecl.lines, List.append_assoc] at h
  obtain ⟨cs, _, next, rfl, hcs, hcomment, h⟩ := exists_comments_of_laid hf.described h
  obtain ⟨_, rest, rfl, hrow, hrest⟩ := laid_cons_inv h
  obtain ⟨label, _, rfl, hlabel, hrow⟩ := row_cons_inv hrow
  obtain ⟨type, row, rfl, htype, hrow⟩ := row_append_inv hrow
  obtain ⟨position, hnumbered⟩ := exists_numbered_of_row hf.described hf.number hrow
    (notAhead_of_laid hrest (Nat.lt_succ_self next)) (said cs)
  refine ⟨cs, label :: (type ++ row ++ rest), _, rest, _, rfl, hcs, ?_,
    .mk (label_of_writes hlabel _) (List.append_assoc type row rest)
      (fieldType_of_row hf.type htype) hnumbered, ?_, hrest⟩
  · intro t ht
    obtain rfl := Option.some.inj ht
    refine not_startsOther ?_
    rw [hlabel.text]
    cases f.cardinality <;> decide
  · rw [hcomment]
    rfl

variable {line : Nat} {more : List (List String)} {ts : List Token} {members : List μ}

theorem exists_body_of_laid (hmembers : ∀ m ∈ members, ReadBack Member lines erase m)
    (h : Laid line (members.flatMap lines ++ ["\x7d"] :: more) ts) :
    ∃ members' rest next, Body Member ts [] members' rest ∧
      members'.map erase = members.map erase ∧ Laid next more rest := by
  induction members generalizing line ts with
  | nil =>
    obtain ⟨_, rest, rfl, hrow, hrest⟩ := laid_cons_inv h
    obtain ⟨brace, _, rfl, hbrace, hrow⟩ := row_cons_inv hrow
    obtain rfl := row_nil_inv hrow
    have hbody : Body Member ([] ++ brace :: rest) [] [] rest :=
      .close nofun (symbol_of_writes hbrace (by decide))
    exact ⟨[], rest, _, hbody, rfl, hrest⟩
  | cons m members ih =>
    rw [List.forall_mem_cons] at hmembers
    rw [List.flatMap_cons, List.append_assoc] at h
    obtain ⟨cs, input, m', _, _, rfl, hcs, hstart, hm, herase, h⟩ := hmembers.1 h
    obtain ⟨members', rest, next, hbody, herases, hrest⟩ := ih hmembers.2 h
    refine ⟨m' :: members', rest, next, .member hcs hstart hm hbody, ?_, hrest⟩
    rw [List.map_cons, List.map_cons, herase, herases]

/-- A body with the setting that marks its definition as ignored, if it is. -/
theorem exists_marked_body_of_laid {ignored : Bool}
    (hmembers : ∀ m ∈ members, ReadBack Member lines erase m)
    (h : Laid line ((if ignored then [["option", "ignore", "=", "true", ";"]] else []) ++
      (members.flatMap lines ++ ["\x7d"] :: more)) ts) :
    ∃ settings members' rest next, Body Member ts settings members' rest ∧
      ignores settings = ignored ∧ members'.map erase = members.map erase ∧
      Laid next more rest := by
  cases ignored with
  | false =>
    obtain ⟨members', rest, next, hbody, herases, hrest⟩ := exists_body_of_laid hmembers h
    exact ⟨[], members', rest, next, hbody, rfl, herases, hrest⟩
  | true =>
    obtain ⟨_, input, rfl, hrow, hinput⟩ := laid_cons_inv h
    obtain ⟨members', rest, next, hbody, herases, hrest⟩ := exists_body_of_laid hmembers hinput
    obtain ⟨word, _, rfl, hword, hrow⟩ := row_cons_inv hrow
    replace hrow : Row line (["ignore", "=", "true"] ++ [";"]) _ := hrow
    obtain ⟨setting, _, rfl, hsetting, hrow⟩ := row_append_inv hrow
    obtain ⟨semicolon, _, rfl, hsemicolon, hrow⟩ := row_cons_inv hrow
    obtain rfl := row_nil_inv hrow
    have hmarked : Body Member ([] ++ word :: setting ++ semicolon :: input)
        [("ignore", "true")] members' rest :=
      .option nofun (keyword_of_writes hword (by decide)) (setting_of_row rfl rfl hsetting)
        (symbol_of_writes hsemicolon (by decide)) hbody
    exact ⟨_, members', rest, next, by simpa using hmarked, by decide, herases, hrest⟩

theorem exists_definition_of_laid {P : μ → Prop} {keyword : String}
    (hkeyword : kindOf keyword.toList = .identifier)
    (hreadBack : ∀ {m}, P m → ReadBack Member lines erase m) {d : Declaration μ}
    (hd : d.Printable P) (h : Laid line (d.lines keyword lines ++ more) ts) :
    ∃ cs word input d' rest next, ts = cs ++ word :: input ∧ Comments cs ∧ Keyword keyword word ∧
      Grammar.Definition Member (said cs) input d' rest ∧
      Declaration.unplaced erase d' = Declaration.unplaced erase d ∧ Laid next more rest := by
  rw [Declaration.lines] at h
  simp only [List.append_assoc, List.cons_append, List.nil_append] at h
  obtain ⟨cs, _, next, rfl, hcs, hcomment, h⟩ := exists_comments_of_laid hd.described h
  obtain ⟨_, input, rfl, hrow, hinput⟩ := laid_cons_inv h
  obtain ⟨word, _, rfl, hword, hrow⟩ := row_cons_inv hrow
  obtain ⟨name, _, rfl, hname, hrow⟩ := row_cons_inv hrow
  obtain ⟨brace, _, rfl, hbrace, hrow⟩ := row_cons_inv hrow
  obtain rfl := row_nil_inv hrow
  have hbehind : Behind brace.position.line input [] input :=
    .nothing (notAhead_of_laid hinput (by rw [hbrace.line]; exact Nat.lt_succ_self next))
  obtain ⟨settings, members', rest, next', hbody, hignored, herases, hrest⟩ :=
    exists_marked_body_of_laid (fun m hm => hreadBack (hd.members m hm)) hinput
  refine ⟨cs, word, name :: brace :: input, _, rest, next', rfl, hcs,
    keyword_of_writes hword hkeyword,
    .mk (hname.kind.trans (kindOf_name hd.described.name)) (symbol_of_writes hbrace (by decide))
      hbehind hbody, ?_, hrest⟩
  rw [List.append_nil, hcomment, hignored, hname.text]
  simp [Declaration.unplaced, herases]

end Definitions

/-! ### Files -/

theorem headerLine_of_row (hh : h.Printable) (hrow : Row line h.words ts) : HeaderLine ts h := by
  obtain ⟨kind, name, value⟩ := h
  cases kind with
  | level =>
    obtain rfl : name = "syntax" := hh
    obtain ⟨word, _, rfl, hword, hrow⟩ := row_cons_inv hrow
    obtain ⟨equals, _, rfl, hequals, hrow⟩ := row_cons_inv hrow
    obtain ⟨literal, _, rfl, hliteral, hrow⟩ := row_cons_inv hrow
    obtain ⟨semicolon, _, rfl, hsemicolon, hrow⟩ := row_cons_inv hrow
    obtain rfl := row_nil_inv hrow
    have hline : HeaderLine [word, equals, literal, semicolon] _ :=
      .level (keyword_of_writes hword (by decide)) (symbol_of_writes hequals (by decide))
        (hliteral.kind.trans (kindOf_quote value)) (symbol_of_writes hsemicolon (by decide))
    rwa [hliteral.text, Text.unquote_quote] at hline
  | package =>
    obtain ⟨rfl, hname, hdot⟩ : name = "package" ∧ IsName value.toList ∧ _ := hh
    obtain ⟨word, _, rfl, hword, hrow⟩ := row_cons_inv hrow
    obtain ⟨t, _, rfl, ht, hrow⟩ := row_cons_inv hrow
    obtain ⟨semicolon, _, rfl, hsemicolon, hrow⟩ := row_cons_inv hrow
    obtain rfl := row_nil_inv hrow
    have hline : HeaderLine [word, t, semicolon] _ :=
      .package (keyword_of_writes hword (by decide)) (ht.kind.trans (kindOf_name hname))
        (symbol_of_writes hsemicolon (by decide))
    have hsame : value.toList.dropWhile (· = '.') = value.toList :=
      ReadDocumentLemmas.dropWhile_of_front fun c hc => by
        simpa using fun heq : c = '.' => hdot (heq ▸ hc)
    rwa [ht.text, hsame, String.ofList_toList] at hline
  | importing =>
    obtain rfl : name = value := hh
    obtain ⟨word, _, rfl, hword, hrow⟩ := row_cons_inv hrow
    obtain ⟨literal, _, rfl, hliteral, hrow⟩ := row_cons_inv hrow
    obtain ⟨semicolon, _, rfl, hsemicolon, hrow⟩ := row_cons_inv hrow
    obtain rfl := row_nil_inv hrow
    have hline : HeaderLine (word :: [] ++ [literal, semicolon]) _ :=
      .importing (keyword_of_writes hword (by decide)) (.inl rfl)
        (hliteral.kind.trans (kindOf_quote name)) (symbol_of_writes hsemicolon (by decide))
    rwa [hliteral.text, Text.unquote_quote] at hline
  | option =>
    obtain ⟨word, _, rfl, hword, hrow⟩ := row_cons_inv hrow
    obtain ⟨t, _, rfl, ht, hrow⟩ := row_cons_inv hrow
    obtain ⟨equals, _, rfl, hequals, hrow⟩ := row_cons_inv hrow
    obtain ⟨literal, _, rfl, hliteral, hrow⟩ := row_cons_inv hrow
    obtain ⟨semicolon, _, rfl, hsemicolon, hrow⟩ := row_cons_inv hrow
    obtain rfl := row_nil_inv hrow
    have hsetting : Setting [t, equals, literal] _ :=
      .mk (ht.kind.trans (kindOf_name hh)) (symbol_of_writes hequals (by decide))
        (.string (hliteral.kind.trans (kindOf_quote value)))
    rw [ht.text, hliteral.text, Text.unquote_quote] at hsetting
    exact .option (keyword_of_writes hword (by decide)) hsetting
      (symbol_of_writes hsemicolon (by decide))

theorem exists_file_of_laid {d : Document} (hd : d.Printable) (h : Laid line d.lines ts) :
    ∃ d', File ts d' ∧ d'.unplaced = d.unplaced := by
  obtain ⟨headers, messages, enums⟩ := d
  obtain ⟨hheaders, hmessages, henums⟩ := hd
  rw [Document.lines, List.append_assoc] at h
  dsimp only at hheaders hmessages henums h
  induction headers generalizing line ts with
  | cons header headers ih =>
    rw [List.forall_mem_cons] at hheaders
    obtain ⟨row, rest, rfl, hrow, hrest⟩ := laid_cons_inv h
    obtain ⟨d, hfile, hd⟩ := ih hrest hheaders.2
    have hheader : File ([] ++ row ++ rest) { d with headers := header :: d.headers } :=
      .header nofun (headerLine_of_row hheaders.1 hrow) hfile
    refine ⟨_, hheader, ?_⟩
    simp only [Document.unplaced, Document.mk.injEq] at hd ⊢
    rw [hd.1]
    exact ⟨rfl, hd.2⟩
  | nil =>
    -- behind the headers, the messages
    induction messages generalizing line ts with
    | cons m messages ih =>
      rw [List.forall_mem_cons] at hmessages
      rw [List.flatMap_cons, List.append_assoc] at h
      obtain ⟨cs, word, input, m', rest, next, rfl, hcs, hword, hm, herase, hrest⟩ :=
        exists_definition_of_laid (by decide) readBack_field hmessages.1 h
      obtain ⟨d, hfile, hd⟩ := ih hmessages.2 hrest
      refine ⟨_, .message hcs hword hm hfile, ?_⟩
      simp only [Document.unplaced, List.map_cons, Document.mk.injEq] at hd ⊢
      rw [herase, hd.2.1]
      exact ⟨hd.1, rfl, hd.2.2⟩
    | nil =>
      induction enums generalizing line ts with
      | cons e enums ih =>
        rw [List.forall_mem_cons] at henums
        rw [List.flatMap_cons] at h
        obtain ⟨cs, word, input, e', rest, next, rfl, hcs, hword, he, herase, hrest⟩ :=
          exists_definition_of_laid (by decide) readBack_constant henums.1 h
        obtain ⟨d, hfile, hd⟩ := ih henums.2 hrest
        refine ⟨_, .enumeration hcs hword he hfile, ?_⟩
        simp only [Document.unplaced, List.map_cons, Document.mk.injEq] at hd ⊢
        rw [herase, hd.2.2]
        exact ⟨hd.1, hd.2.1, rfl⟩
      | nil =>
        cases h with
        | @done _ mark hmark =>
          have hfile : File ([] ++ [mark]) ⟨[], [], []⟩ := .done nofun hmark
          exact ⟨_, hfile, rfl⟩

theorem ofText_render_of_printable {d : Document} (hd : d.Printable) :
    ∃ d', Document.ofText d.render = .ok d' ∧ d'.unplaced = d.unplaced := by
  obtain ⟨ts, hts, hlaid⟩ := Token.tokenize_render (legible_of_printable hd)
  obtain ⟨d', hfile, hsame⟩ := exists_file_of_laid hd hlaid
  have hread := (Document.ofTokens_eq_ok_iff (Token.scanned_of_tokenize hts) d').2 hfile
  exact ⟨d', Document.ofText_eq_ok_iff.2 ⟨ts, hts, hread⟩, hsame⟩

end RoundTripLemmas

/-! ## 3. The round trip -/

open RoundTripLemmas in
/-- Whatever text a document was read from, its canonical text can be read, and gives the document
back but for the positions of its declarations. -/
theorem ofText_render {text : String} {d : Document} (h : Document.ofText text = .ok d) :
    ∃ d', Document.ofText d.render = .ok d' ∧ d'.unplaced = d.unplaced :=
  ofText_render_of_printable (Document.printable_of_ofText h)

/-- A text with escapes in a string, marks of comments inside comments, and keywords as names. -/
def crowdedText : String :=
  "option o = \"q\\u0001\\n\"; package .x.y;\n/* a\n * b */ // /* c\nmessage message \x7b // d\n" ++
  "option ignore = true; repeated repeated map = -07 [x = 1, ignore = true]; // // e\n" ++
  "map<.k, v> enum = 8;\x7d"

def crowdedDocument : Document where
  headers := [⟨.option, "o", "q\x01\n"⟩, ⟨.package, "package", "x.y"⟩]
  messages := [{
    name := "message"
    comment := some "a b /* c d"
    ignored := true
    members := [{
        name := "map"
        comment := some "// e"
        ignored := true
        number := -7
        type := .named "repeated"
        cardinality := .repeated
        position := ⟨5, 41⟩ }, {
        name := "enum"
        comment := none
        ignored := false
        number := 8
        type := .map ".k" "v"
        cardinality := .singular
        position := ⟨6, 12⟩ }]
    position := ⟨4, 9⟩ }]
  enums := []

theorem ofText_render_crowdedText :
    Document.ofText crowdedText = .ok crowdedDocument ∧
      ∃ d, Document.ofText crowdedDocument.render = .ok d ∧
        d.unplaced = crowdedDocument.unplaced := by
  have hread : Document.ofText crowdedText = .ok crowdedDocument := by decide +kernel
  exact ⟨hread, ofText_render hread⟩

example :
    crowdedDocument.render =
      "option o = \"q\\u0001\\n\";\npackage x.y;\n// a b /* c d\nmessage message \x7b\n" ++
      "option ignore = true;\n// // e\nrepeated repeated map = -7 [ignore = true];\n" ++
      "optional map<.k, v> enum = 8;\n\x7d\n" := by
  decide +kernel

end SchemaGen
