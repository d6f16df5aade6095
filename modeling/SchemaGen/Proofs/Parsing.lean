import SchemaGen.Proofs.EndlessReadings

/-!
# Reading follows the grammar

Each reader of schema texts recognizes the phrases of its rule, so tokens of a text are read as a
document if and only if the grammar derives it from them. The rules leave out what stands where a
reader only looks ahead: a word that is not there is said by what stands there instead.

Results:
1. `recognizes_numbered`, `recognizes_field`: the members of definitions.
2. `recognizes_definition`: definitions, by an induction over the items of a body.
3. `ofTokens_eq_ok_iff`: files, by an induction over their statements.
4. `ofTokens_tokenize_eq_ok_iff`: the tokens of a text are read as `d` if and only if `d` derives
   from them.
-/

namespace SchemaGen.Document

open Grammar
open Text (int32? unquote)
open Token (Scanned)

variable {α β : Type}

/-- A phrase `P` at the front of the tokens. -/
def Front (P : List Token → α → Prop) (ts : List Token) (a : α) (rest : List Token) : Prop :=
  ∃ phrase, ts = phrase ++ rest ∧ P phrase a

namespace ParsingLemmas

variable {t : Token} {ts : List Token}

theorem notAhead_cons {P : Token → Prop} : NotAhead P (t :: ts) ↔ ¬ P t := by
  simp [NotAhead]

theorem notAhead_comment {word : String} (ht : Keyword word t) :
    NotAhead (fun t => t.kind = .comment) (t :: ts) := by
  rw [notAhead_cons, ht.1]
  decide

theorem notAhead_symbol {word mark : String} (ht : Keyword word t) :
    NotAhead (Symbol mark) (t :: ts) := by
  rw [notAhead_cons]
  intro hmark
  exact absurd (ht.1.symm.trans hmark.1) (by decide)

theorem notAhead_keyword {word other : String} (ht : Keyword word t) (hne : word ≠ other) :
    NotAhead (Keyword other) (t :: ts) := by
  rw [notAhead_cons]
  intro hother
  exact hne (ht.2.symm.trans hother.2)

end ParsingLemmas

open ParsingLemmas

/-! ## Settings -/

theorem recognizes_identifier :
    Recognizes identifier fun ts t rest => ts = t :: rest ∧ t.kind = .identifier :=
  recognizes_token (by decide)

theorem recognizes_stringValue :
    Recognizes stringValue fun ts s rest =>
      ∃ t, ts = t :: rest ∧ t.kind = .string ∧ s = unquote t.text := by
  unfold stringValue
  refine ((recognizes_token (by decide)).bind fun t => recognizes_pure _).congr ?_
  intro ts s rest _
  constructor
  · rintro ⟨t, middle, ⟨hts, hkind⟩, hs, rfl⟩
    exact ⟨t, hts, hkind, hs⟩
  · rintro ⟨t, hts, hkind, hs⟩
    exact ⟨t, rest, ⟨hts, hkind⟩, hs, rfl⟩

theorem recognizes_integerValue :
    Recognizes integerValue fun ts n rest =>
      ∃ t, ts = t :: rest ∧ t.kind = .integer ∧ int32? t.text = some n := by
  unfold integerValue
  refine ((recognizes_token (by decide)).bind
    (H := fun t ts n rest => int32? t.text = some n ∧ rest = ts) fun t => ?_).congr ?_
  · cases int32? t.text with
    | none => exact (recognizes_failAt _ _).congr fun ts n rest _ => by simp
    | some n => exact (recognizes_pure n).congr fun ts m rest _ => by simp [eq_comm]
  intro ts n rest _
  constructor
  · rintro ⟨t, middle, ⟨hts, hkind⟩, hn, rfl⟩
    exact ⟨t, hts, hkind, hn⟩
  · rintro ⟨t, hts, hkind, hn⟩
    exact ⟨t, rest, ⟨hts, hkind⟩, hn, rfl⟩

theorem optionValue_eq_ok_iff {c c' : Cursor} {v : String} :
    optionValue c = .ok (v, c') ↔ Value c.current v ∧ c' = c.next := by
  have hpeek : peek c = .ok (c.current, c) := rfl
  rw [optionValue, bind_run hpeek]
  constructor
  · intro h
    cases hkind : c.current.kind with
    | string =>
      rw [hkind] at h
      cases h
      exact ⟨.string hkind, rfl⟩
    | identifier =>
      rw [hkind] at h
      cases h
      exact ⟨.identifier hkind, rfl⟩
    | integer =>
      rw [hkind] at h
      cases h
      exact ⟨.integer hkind, rfl⟩
    | _ =>
      rw [hkind] at h
      cases h
  · rintro ⟨hvalue, rfl⟩
    cases hvalue with
    | string hkind => rw [hkind]; rfl
    | identifier hkind => rw [hkind]; rfl
    | integer hkind => rw [hkind]; rfl

theorem recognizes_optionValue :
    Recognizes optionValue fun ts v rest => ∃ t, ts = t :: rest ∧ Value t v := by
  refine recognizes_of_current optionValue_eq_ok_iff ?_
  intro t v hvalue
  cases hvalue <;> simp_all

theorem spells_equals : Spells "=" (Symbol "=") :=
  spells_symbol (by decide) (by decide)

theorem recognizes_setting : Recognizes setting (Front Setting) := by
  unfold setting
  refine (recognizes_identifier.bind fun name => (recognizes_expect spells_equals).bind fun _ =>
    recognizes_optionValue.bind fun v => recognizes_pure _).congr ?_
  intro ts s rest _
  constructor
  · rintro ⟨name, _, ⟨rfl, hname⟩, _, _, ⟨equals, rfl, hequals⟩, v, _, ⟨value, rfl, hvalue⟩, rfl,
      rfl⟩
    exact ⟨[name, equals, value], rfl, .mk hname hequals hvalue⟩
  · rintro ⟨_, rfl, @⟨name, equals, value, v, hname, hequals, hvalue⟩⟩
    exact ⟨name, _, ⟨rfl, hname⟩, (), _, ⟨equals, rfl, hequals⟩, v, _, ⟨value, rfl, hvalue⟩, rfl,
      rfl⟩

/-- A comma and a setting behind it, or no comma. -/
inductive NextSetting : List Token → Option (String × String) → List Token → Prop
  | comma {ts rest : List Token} {comma : Token} {s : String × String} (hcomma : Symbol "," comma)
      (hsetting : Setting ts s) : NextSetting (comma :: (ts ++ rest)) (some s) rest
  | nothing {rest : List Token} (hnone : NotAhead (Symbol ",") rest) : NextSetting rest none rest

theorem recognizes_nextSetting :
    Recognizes (do if ← eat "," then return some (← setting) else return none) NextSetting := by
  have hcomma := spells_symbol (w := ",") (by decide) (by decide)
  refine (Recognizes.ifEat hcomma (recognizes_setting.bind fun s => recognizes_pure (some s))
    (recognizes_pure none)).congr ?_
  intro ts a rest _
  constructor
  · rintro (⟨comma, _, rfl, hcomma, s, _, ⟨phrase, rfl, hsetting⟩, rfl, rfl⟩ | ⟨hnone, rfl, rfl⟩)
    · exact .comma hcomma hsetting
    · exact .nothing hnone
  · intro h
    cases h with
    | comma hcomma hsetting => exact .inl ⟨_, _, rfl, hcomma, _, _, ⟨_, rfl, hsetting⟩, rfl, rfl⟩
    | nothing hnone => exact .inr ⟨hnone, rfl, rfl⟩

variable {ts rest input : List Token} {before : List String}

theorem settings_ne_nil {settings : List (String × String)} (h : Grammar.Settings ts settings) :
    settings ≠ [] := by
  cases h <;> simp

theorem many_nextSetting_iff {s : String × String} {others : List (String × String)} :
    (∃ middle, Front Setting ts s middle ∧ Many NextSetting middle others rest) ↔
      Front Grammar.Settings ts (s :: others) rest ∧ NotAhead (Symbol ",") rest := by
  constructor
  · rintro ⟨middle, hfirst, hothers⟩
    induction hothers generalizing ts s with
    | done hnone =>
      cases hnone with
      | nothing hnone =>
        obtain ⟨phrase, rfl, hsetting⟩ := hfirst
        exact ⟨⟨phrase, rfl, .one hsetting⟩, hnone⟩
    | step hnext _ ih =>
      cases hnext with
      | @comma ts' _ comma _ hcomma hsetting =>
        obtain ⟨⟨phrase', heq, hsettings⟩, hrest⟩ := ih ⟨ts', rfl, hsetting⟩
        obtain ⟨phrase, rfl, hsetting'⟩ := hfirst
        refine ⟨⟨phrase ++ comma :: phrase', ?_, .more hsetting' hcomma hsettings⟩, hrest⟩
        simp [heq]
  · rintro ⟨⟨phrase, rfl, hsettings⟩, hrest⟩
    generalize hall : s :: others = all at hsettings
    induction hsettings generalizing s others with
    | one hsetting =>
      cases hall
      exact ⟨rest, ⟨_, rfl, hsetting⟩, .done (.nothing hrest)⟩
    | @more ts' rest' comma _ more hsetting hcomma hothers ih =>
      cases hall
      obtain ⟨s', others', rfl⟩ := List.exists_cons_of_ne_nil (settings_ne_nil hothers)
      obtain ⟨middle, ⟨phrase', heq, hsetting'⟩, hmany⟩ := ih rfl
      refine ⟨comma :: (rest' ++ rest), ⟨ts', by simp, hsetting⟩, ?_⟩
      rw [heq]
      exact .step (.comma hcomma hsetting') hmany

/-- Settings in brackets, or no bracket, and whether they mark something as ignored. -/
inductive Brackets : List Token → Bool → List Token → Prop
  | settings {opening closing : Token} {ts rest : List Token} {settings : List (String × String)}
      (hopening : Symbol "[" opening) (hsettings : Grammar.Settings ts settings)
      (hclosing : Symbol "]" closing) :
      Brackets (opening :: ts ++ closing :: rest) (ignores settings) rest
  | nothing {rest : List Token} (hnone : NotAhead (Symbol "[") rest) : Brackets rest false rest

theorem any_marksIgnored (settings : List (String × String)) :
    settings.any marksIgnored = ignores settings := by
  have hmarks (s : String × String) : marksIgnored s = true ↔ s = ("ignore", "true") := by
    simp [marksIgnored, Prod.ext_iff]
  rw [Bool.eq_iff_iff, List.any_eq_true, ignores, decide_eq_true_iff]
  simp [hmarks]

theorem recognizes_fieldSettings : Recognizes fieldSettings Brackets := by
  have hopening := spells_symbol (w := "[") (by decide) (by decide)
  have hclosing := spells_symbol (w := "]") (by decide) (by decide)
  unfold fieldSettings
  refine (Recognizes.unlessEat hopening (recognizes_setting.bind fun first =>
    (recognizes_nextSetting.collect itemized_nextSetting.shorter).bind fun others =>
    (recognizes_expect hclosing).bind fun _ => recognizes_pure _) (recognizes_pure false)).congr ?_
  intro ts a rest _
  constructor
  · rintro (⟨opening, _, rfl, hopening, first, _, hfirst, others, _, hothers, _, _,
      ⟨closing, rfl, hclosing⟩, rfl, rfl⟩ | ⟨hnone, rfl, rfl⟩)
    · obtain ⟨⟨phrase, rfl, hsettings⟩, -⟩ := many_nextSetting_iff.1 ⟨_, hfirst, hothers⟩
      rw [any_marksIgnored]
      exact .settings hopening hsettings hclosing
    · exact .nothing hnone
  · intro h
    cases h with
    | @settings opening closing phrase _ all hopening hsettings hclosing =>
      obtain ⟨first, others, rfl⟩ := List.exists_cons_of_ne_nil (settings_ne_nil hsettings)
      have hcomma : NotAhead (Symbol ",") (closing :: rest) := by
        simp [notAhead_cons, Grammar.Symbol, hclosing.2]
      obtain ⟨middle, hfirst, hothers⟩ :=
        many_nextSetting_iff.2 ⟨⟨phrase, rfl, hsettings⟩, hcomma⟩
      exact .inl ⟨opening, _, rfl, hopening, first, middle, hfirst, others, _, hothers, (), rest,
        ⟨closing, rfl, hclosing⟩, (any_marksIgnored _).symm, rfl⟩
    | nothing hnone => exact .inr ⟨hnone, rfl, rfl⟩

/-- Before a semicolon, brackets are the options of a field. -/
theorem brackets_iff {semicolon : Token} {ignored : Bool} (hsemicolon : Symbol ";" semicolon) :
    Brackets ts ignored (semicolon :: rest) ↔
      ∃ options settings, ts = options ++ semicolon :: rest ∧ Options options settings ∧
        ignored = ignores settings := by
  constructor
  · intro h
    cases h with
    | settings hopening hsettings hclosing =>
      exact ⟨_, _, by simp, .settings hopening hsettings hclosing, rfl⟩
    | nothing => exact ⟨[], [], rfl, .nothing, rfl⟩
  · rintro ⟨options, settings, rfl, hoptions, rfl⟩
    cases hoptions with
    | nothing => exact .nothing (by simp [notAhead_cons, Grammar.Symbol, hsemicolon.2])
    | @settings opening closing ts settings hopening hsettings hclosing =>
      have h : Brackets (opening :: ts ++ closing :: semicolon :: rest) _ _ :=
        .settings hopening hsettings hclosing
      simpa using h

/-! ## 1. Members of definitions -/

theorem recognizes_numbered (before : List String) :
    Recognizes (numbered before) (Numbered before) := by
  unfold numbered
  refine (recognizes_identifier.bind fun name => (recognizes_expect spells_equals).bind fun _ =>
    recognizes_integerValue.bind fun number => recognizes_fieldSettings.bind fun ignored =>
    Recognizes.expectBehind spells_semicolon fun behind => recognizes_pure _).congr ?_
  intro ts c rest _
  constructor
  · rintro ⟨name, _, ⟨rfl, hname⟩, _, _, ⟨equals, rfl, hequals⟩, n, _,
      ⟨number, rfl, hnumber, hvalue⟩, ignored, _, hbrackets, semicolon, input, behind, _, rfl,
      hsemicolon, hbehind, rfl, rfl⟩
    obtain ⟨options, settings, rfl, hoptions, rfl⟩ := (brackets_iff hsemicolon).1 hbrackets
    exact .mk hname hequals hnumber hvalue hoptions hsemicolon hbehind
  · intro h
    cases h with
    | @mk name equals number semicolon options input _ settings n behind hname hequals hnumber
        hvalue hoptions hsemicolon hbehind =>
      have hbrackets : Brackets (options ++ semicolon :: input) _ (semicolon :: input) :=
        (brackets_iff hsemicolon).2 ⟨options, settings, rfl, hoptions, rfl⟩
      exact ⟨name, _, ⟨rfl, hname⟩, (), _, ⟨equals, rfl, hequals⟩, n, _,
        ⟨number, rfl, hnumber, hvalue⟩, _, _, hbrackets, semicolon, input, behind, _, rfl,
        hsemicolon, hbehind, rfl, rfl⟩

theorem recognizes_fieldCardinality : Recognizes fieldCardinality Label := by
  have hrepeated := spells_keyword (w := "repeated") (by decide)
  have hoptional := spells_keyword (w := "optional") (by decide)
  have hrequired := spells_keyword (w := "required") (by decide)
  unfold fieldCardinality
  refine (Recognizes.ifEat hrepeated (recognizes_pure _) <| Recognizes.ifEat hoptional
    (recognizes_pure _) <| (recognizes_eat hrequired).bind fun _ => recognizes_pure _).congr ?_
  intro ts cardinality rest _
  constructor
  · rintro (⟨t, _, rfl, hword, rfl, rfl⟩ | ⟨hrepeated, ⟨t, _, rfl, hword, rfl, rfl⟩ |
      ⟨hoptional, _, _, ⟨-, t, rfl, hword⟩ | ⟨-, hrequired, rfl⟩, rfl, rfl⟩⟩)
    · exact .repeated hword
    · exact .optional hword
    · exact .required hword
    · refine .nothing fun t ht hlabel => ?_
      rcases hlabel with hword | hword | hword
      · exact hrepeated t ht hword
      · exact hoptional t ht hword
      · exact hrequired t ht hword
  · intro h
    cases h with
    | repeated hword => exact .inl ⟨_, _, rfl, hword, rfl, rfl⟩
    | optional hword =>
      exact .inr ⟨notAhead_keyword hword (by decide), .inl ⟨_, _, rfl, hword, rfl, rfl⟩⟩
    | required hword =>
      exact .inr ⟨notAhead_keyword hword (by decide), .inr
        ⟨notAhead_keyword hword (by decide), true, _, .inl ⟨rfl, _, rfl, hword⟩, rfl, rfl⟩⟩
    | nothing hnone =>
      exact .inr ⟨fun t ht hword => hnone t ht (.inl hword), .inr
        ⟨fun t ht hword => hnone t ht (.inr (.inl hword)), false, _,
          .inr ⟨rfl, fun t ht hword => hnone t ht (.inr (.inr hword)), rfl⟩, rfl, rfl⟩⟩

theorem recognizes_fieldType (cardinality : Cardinality) :
    Recognizes (fieldType cardinality) (Front (Grammar.FieldType cardinality)) := by
  have hmap := spells_keyword (w := "map") (by decide)
  have hless := spells_symbol (w := "<") (by decide) (by decide)
  have hcomma := spells_symbol (w := ",") (by decide) (by decide)
  have hgreater := spells_symbol (w := ">") (by decide) (by decide)
  unfold fieldType
  refine (Recognizes.ifEat hmap ((recognizes_expect hless).bind fun _ =>
    recognizes_identifier.bind fun key => (recognizes_expect hcomma).bind fun _ =>
    recognizes_identifier.bind fun value => (recognizes_expect hgreater).bind fun _ =>
    Recognizes.ite (recognizes_peek.bind fun t => (recognizes_failAt t _).bind fun _ =>
      recognizes_pure _) (recognizes_pure _))
    (recognizes_identifier.bind fun t => recognizes_pure _)).congr ?_
  intro ts type rest _
  constructor
  · rintro (⟨word, _, rfl, hword, _, _, ⟨less, rfl, hless⟩, key, _, ⟨rfl, hkey⟩, _, _,
      ⟨comma, rfl, hcomma⟩, value, _, ⟨rfl, hvalue⟩, _, _, ⟨greater, rfl, hgreater⟩,
      ⟨-, _, _, -, _, _, hfail, -⟩ | ⟨hsingular, rfl, rfl⟩⟩ | ⟨hnone, t, _, ⟨rfl, ht⟩, rfl, rfl⟩)
    · exact hfail.elim
    · obtain rfl : cardinality = .singular := by
        cases cardinality with
        | singular => rfl
        | repeated => exact absurd rfl hsingular
      exact ⟨[word, less, key, comma, value, greater], rfl,
        .map hword hless hkey hcomma hvalue hgreater⟩
    · exact ⟨[t], rfl, .named ht fun htext => hnone t rfl ⟨ht, htext⟩⟩
  · rintro ⟨phrase, rfl, htype⟩
    cases htype with
    | named hkind hnot =>
      exact .inr ⟨fun _ ht hword => hnot (Option.some.inj ht ▸ hword.2), _, _, ⟨rfl, hkind⟩, rfl,
        rfl⟩
    | map hword hless hkey hcomma hvalue hgreater =>
      exact .inl ⟨_, _, rfl, hword, (), _, ⟨_, rfl, hless⟩, _, _, ⟨rfl, hkey⟩, (), _,
        ⟨_, rfl, hcomma⟩, _, _, ⟨rfl, hvalue⟩, (), _, ⟨_, rfl, hgreater⟩, .inr ⟨nofun, rfl, rfl⟩⟩

theorem recognizes_field (before : List String) :
    Recognizes (field before) (Grammar.Field before) := by
  unfold field
  refine (recognizes_fieldCardinality.bind fun cardinality =>
    (recognizes_fieldType cardinality).bind fun type =>
    (recognizes_numbered before).bind fun c => recognizes_pure _).congr ?_
  intro ts f rest _
  constructor
  · rintro ⟨cardinality, _, hlabel, expr, middle, ⟨type, rfl, htype⟩, c, _, hnumbered, rfl, rfl⟩
    exact .mk hlabel rfl htype hnumbered
  · intro h
    cases h with
    | mk hlabel hinput htype hnumbered =>
      exact ⟨_, _, hlabel, _, _, ⟨_, hinput, htype⟩, _, _, hnumbered, rfl, rfl⟩

/-! ## 2. Definitions -/

/-- A member starts with a name or a keyword. -/
def StartsNamed (input rest : List Token) : Prop :=
  ∃ t front, input = t :: front ++ rest ∧ t.kind = .identifier

theorem exists_front_of_behind {line : Nat} {words : List String}
    (h : Behind line input words rest) : ∃ front, input = front ++ rest := by
  cases h with
  | @comment t => exact ⟨[t], rfl⟩
  | nothing => exact ⟨[], rfl⟩

theorem startsNamed_of_numbered {c : ConstantDecl} (h : Numbered before input c rest) :
    StartsNamed input rest := by
  cases h with
  | @mk name equals number semicolon options input _ _ _ _ hname _ _ _ _ _ hbehind =>
    obtain ⟨front, rfl⟩ := exists_front_of_behind hbehind
    exact ⟨name, equals :: number :: options ++ semicolon :: front, by simp, hname⟩

theorem startsNamed_of_fieldType {cardinality : Cardinality} {phrase middle : List Token}
    {expr : TypeExpr} (h : Grammar.FieldType cardinality phrase expr)
    (hmiddle : StartsNamed middle rest) : StartsNamed (phrase ++ middle) rest := by
  obtain ⟨t, front, rfl, -⟩ := hmiddle
  cases h with
  | @named _ t' hkind => exact ⟨t', t :: front, by simp, hkind⟩
  | @map word less key comma value greater hword =>
    exact ⟨word, less :: key :: comma :: value :: greater :: t :: front, by simp, hword.1⟩

theorem startsNamed_of_field {f : FieldDecl} (h : Grammar.Field before input f rest) :
    StartsNamed input rest := by
  cases h with
  | mk hlabel hinput htype hnumbered =>
    subst hinput
    have htyped := startsNamed_of_fieldType htype (startsNamed_of_numbered hnumbered)
    obtain ⟨t, front, heq, -⟩ := htyped
    cases hlabel with
    | @repeated word _ hword => exact ⟨word, t :: front, by rw [heq]; rfl, hword.1⟩
    | @optional word _ hword => exact ⟨word, t :: front, by rw [heq]; rfl, hword.1⟩
    | @required word _ hword => exact ⟨word, t :: front, by rw [heq]; rfl, hword.1⟩
    | nothing => exact startsNamed_of_fieldType htype (startsNamed_of_numbered hnumbered)

section Bodies

variable {μ : Type} {member : List String → Parser μ}
  {Member : List String → List Token → μ → List Token → Prop} {ts rest : List Token}
  (hstarts : ∀ {before input m rest}, Member before input m rest → StartsNamed input rest)

include hstarts in
theorem exists_front_of_body {settings : List (String × String)} {members : List μ}
    (h : Body Member ts settings members rest) : ∃ front, ts = front ++ rest := by
  induction h with
  | @close cs _ brace => exact ⟨cs ++ [brace], by simp⟩
  | @option cs phrase _ _ word semicolon _ _ _ _ _ _ _ _ ih =>
    obtain ⟨front, rfl⟩ := ih
    exact ⟨cs ++ word :: phrase ++ semicolon :: front, by simp⟩
  | @reserved cs phrase _ _ word semicolon _ _ _ _ _ _ _ ih =>
    obtain ⟨front, rfl⟩ := ih
    exact ⟨cs ++ word :: phrase ++ semicolon :: front, by simp⟩
  | @member cs _ _ _ _ _ _ _ _ hm _ ih =>
    obtain ⟨t, front, rfl, -⟩ := hstarts hm
    obtain ⟨front', rfl⟩ := ih
    exact ⟨cs ++ t :: front ++ front', by simp⟩

include hstarts in
theorem startsNamed_of_definition {before : List String} {input : List Token} {d : Declaration μ}
    (h : Grammar.Definition Member before input d rest) : StartsNamed input rest := by
  cases h with
  | @mk name brace input _ _ _ _ _ hname _ hbehind hbody =>
    obtain ⟨front, rfl⟩ := exists_front_of_behind hbehind
    obtain ⟨front', rfl⟩ := exists_front_of_body hstarts hbody
    exact ⟨name, brace :: front ++ front', by simp, hname⟩

/-- The next item of a body, or its closing brace. -/
inductive NextItem (Member : List String → List Token → μ → List Token → Prop) :
    List Token → Option (Item μ) → List Token → Prop
  | close {comments rest : List Token} {brace : Token} (hcomments : Comments comments)
      (hbrace : Symbol "\x7d" brace) : NextItem Member (comments ++ brace :: rest) none rest
  | option {comments ts rest : List Token} {word semicolon : Token} {s : String × String}
      (hcomments : Comments comments) (hword : Keyword "option" word) (hsetting : Setting ts s)
      (hsemicolon : Symbol ";" semicolon) :
      NextItem Member (comments ++ word :: ts ++ semicolon :: rest)
        (some (.setting (marksIgnored s))) rest
  | reserved {comments ts rest : List Token} {word semicolon : Token}
      (hcomments : Comments comments) (hword : Keyword "reserved" word)
      (hskipped : ∀ t ∈ ts, ¬ Symbol ";" t) (hsemicolon : Symbol ";" semicolon) :
      NextItem Member (comments ++ word :: ts ++ semicolon :: rest) (some .reserved) rest
  | member {comments input rest : List Token} {m : μ} (hcomments : Comments comments)
      (hstart : NotAhead StartsOther input) (hmember : Member (said comments) input m rest) :
      NextItem Member (comments ++ input) (some (.member m)) rest

/-- The reader behind the words that cannot start a member. -/
theorem recognizes_notNested {x : Parser α} {G : List Token → α → List Token → Prop}
    (hx : Recognizes x G) :
    Recognizes (do
      let t ← peek
      if nestedKeywords.any t.is then failAt t (.nested t.text)
      x) fun ts a rest =>
        NotAhead (fun t => ∃ word ∈ nestedKeywords, Keyword word t) ts ∧ G ts a rest := by
  refine (recognizes_peek.bind fun t => Recognizes.ite ((recognizes_failAt t _).bind fun _ => hx)
    hx).congr ?_
  intro ts a rest hts
  obtain ⟨t, ts', rfl⟩ := List.exists_cons_of_ne_nil hts.ne_nil
  have hkind : ∀ word ∈ nestedKeywords, Token.kindOf word.toList = .identifier := by decide
  have hnested : nestedKeywords.any t.is = true ↔ ∃ word ∈ nestedKeywords, Keyword word t := by
    rw [List.any_eq_true]
    exact exists_congr fun word => and_congr_right fun hword =>
      (spells_keyword (hkind word hword) t ts' hts).1
  constructor
  · rintro ⟨_, _, ⟨⟨⟩, rfl⟩, ⟨-, _, _, hfail, -⟩ | ⟨hnot, hG⟩⟩
    · exact hfail.elim
    · exact ⟨notAhead_cons.2 (mt hnested.2 hnot), hG⟩
  · rintro ⟨hnot, hG⟩
    exact ⟨t, _, ⟨rfl, rfl⟩, .inr ⟨mt hnested.1 (notAhead_cons.1 hnot), hG⟩⟩

include hstarts in
theorem recognizes_bodyItem (hmember : ∀ before, Recognizes (member before) (Member before)) :
    Recognizes (bodyItem member) (NextItem Member) := by
  have hbrace := spells_symbol (w := "\x7d") (by decide) (by decide)
  have hoption := spells_keyword (w := "option") (by decide)
  have hreserved := spells_keyword (w := "reserved") (by decide)
  unfold bodyItem
  refine (recognizes_comments.bind fun before => Recognizes.ifEat hbrace (recognizes_pure _) <|
    Recognizes.ifEat hoption (recognizes_setting.bind fun s =>
      (recognizes_expect spells_semicolon).bind fun _ => recognizes_pure _) <|
    Recognizes.ifEat hreserved (recognizes_skipStatement.bind fun _ => recognizes_pure _) <|
    recognizes_notNested ((hmember before).bind fun m => recognizes_pure _)).congr ?_
  intro ts item rest _
  constructor
  · rintro ⟨_, _, ⟨cs, rfl, hcs, rfl, -⟩, ⟨brace, _, rfl, hbrace, rfl, rfl⟩ |
      ⟨-, ⟨word, _, rfl, hword, s, _, ⟨phrase, rfl, hsetting⟩, _, _,
        ⟨semicolon, rfl, hsemicolon⟩, rfl, rfl⟩ |
      ⟨hoption, ⟨word, _, rfl, hword, _, _,
        ⟨skipped, semicolon, rfl, hskipped, hsemicolon⟩, rfl, rfl⟩ |
      ⟨hreserved, hnested, m, _, hm, rfl, rfl⟩⟩⟩⟩
    · exact .close hcs hbrace
    · have h : NextItem Member (cs ++ word :: phrase ++ semicolon :: rest) _ rest :=
        .option hcs hword hsetting hsemicolon
      simpa using h
    · have h : NextItem Member (cs ++ word :: skipped ++ semicolon :: rest) _ rest :=
        .reserved hcs hword hskipped hsemicolon
      simpa using h
    · refine .member hcs (fun t ht hother => ?_) hm
      rcases hother with hword | hword | hword
      · exact hoption t ht hword
      · exact hreserved t ht hword
      · exact hnested t ht hword
  · intro h
    cases h with
    | close hcs hbrace =>
      refine ⟨_, _, ⟨_, rfl, hcs, rfl, ?_⟩, .inl ⟨_, _, rfl, hbrace, rfl, rfl⟩⟩
      simp [notAhead_cons, hbrace.1]
    | option hcs hword hsetting hsemicolon =>
      exact ⟨_, _, ⟨_, by simp, hcs, rfl, notAhead_comment hword⟩, .inr ⟨notAhead_symbol hword, .inl
        ⟨_, _, rfl, hword, _, _, ⟨_, rfl, hsetting⟩, (), _, ⟨_, rfl, hsemicolon⟩, rfl, rfl⟩⟩⟩
    | reserved hcs hword hskipped hsemicolon =>
      exact ⟨_, _, ⟨_, by simp, hcs, rfl, notAhead_comment hword⟩, .inr ⟨notAhead_symbol hword, .inr
        ⟨notAhead_keyword hword (by decide), .inl
        ⟨_, _, rfl, hword, (), _, ⟨_, _, rfl, hskipped, hsemicolon⟩, rfl, rfl⟩⟩⟩⟩
    | @member cs input _ m hcs hstart hm =>
      obtain ⟨t, front, rfl, ht⟩ := hstarts hm
      refine ⟨_, _, ⟨_, rfl, hcs, rfl, ?_⟩, .inr ⟨?_, .inr ⟨fun t ht hword => ?_, .inr
        ⟨fun t ht hword => ?_, fun t ht hword => ?_, _, _, hm, rfl, rfl⟩⟩⟩⟩
      · simp [notAhead_cons, ht]
      · simp [notAhead_cons, Grammar.Symbol, ht]
      · exact hstart t ht (.inl hword)
      · exact hstart t ht (.inr (.inl hword))
      · exact hstart t ht (.inr (.inr hword))

/-- The items of a body are its settings and its members. -/
theorem many_nextItem_iff {ignored : Bool} {members : List μ} :
    (∃ items, Many (NextItem Member) ts items rest ∧ ignored = items.any Item.marks ∧
      members = items.filterMap Item.member?) ↔
      ∃ settings, Body Member ts settings members rest ∧ ignored = ignores settings := by
  constructor
  · rintro ⟨items, hmany, rfl, rfl⟩
    induction hmany with
    | done hnone =>
      cases hnone with
      | close hcs hbrace => exact ⟨[], .close hcs hbrace, rfl⟩
    | step hnext _ ih =>
      obtain ⟨settings, hbody, hignored⟩ := ih
      cases hnext with
      | option hcs hword hsetting hsemicolon =>
        refine ⟨_, .option hcs hword hsetting hsemicolon hbody, ?_⟩
        rw [← any_marksIgnored] at hignored ⊢
        rw [List.any_cons, List.any_cons, hignored]
        rfl
      | reserved hcs hword hskipped hsemicolon =>
        exact ⟨_, .reserved hcs hword hskipped hsemicolon hbody, hignored⟩
      | member hcs hstart hm => exact ⟨_, .member hcs hstart hm hbody, hignored⟩
  · rintro ⟨settings, hbody, rfl⟩
    induction hbody with
    | close hcs hbrace => exact ⟨[], .done (.close hcs hbrace), rfl, rfl⟩
    | option hcs hword hsetting hsemicolon _ ih =>
      obtain ⟨items, hmany, hignored, rfl⟩ := ih
      refine ⟨_, .step (.option hcs hword hsetting hsemicolon) hmany, ?_, rfl⟩
      rw [← any_marksIgnored] at hignored ⊢
      rw [List.any_cons, List.any_cons, hignored]
      rfl
    | reserved hcs hword hskipped hsemicolon _ ih =>
      obtain ⟨items, hmany, hignored, rfl⟩ := ih
      exact ⟨_, .step (.reserved hcs hword hskipped hsemicolon) hmany, hignored, rfl⟩
    | member hcs hstart hm _ ih =>
      obtain ⟨items, hmany, hignored, rfl⟩ := ih
      exact ⟨_, .step (.member hcs hstart hm) hmany, hignored, rfl⟩

include hstarts in
theorem recognizes_definition (hmember : ∀ before, Recognizes (member before) (Member before))
    (hsteady : ∀ before, Steady ["=", ";"] (member before)) (before : List String) :
    Recognizes (definition member before) (Grammar.Definition Member before) := by
  have hbrace := spells_symbol (w := "\x7b") (by decide) (by decide)
  have hitems := (recognizes_bodyItem hstarts hmember).collect (itemized_bodyItem hsteady).shorter
  unfold definition
  refine (recognizes_identifier.bind fun name => Recognizes.expectBehind hbrace fun behind =>
    hitems.bind fun items => recognizes_pure _).congr ?_
  intro ts d rest _
  constructor
  · rintro ⟨name, _, ⟨rfl, hname⟩, brace, input, behind, middle, rfl, hbrace, hbehind, items, _,
      hmany, rfl, rfl⟩
    obtain ⟨settings, hbody, hignored⟩ := many_nextItem_iff.1 ⟨items, hmany, rfl, rfl⟩
    rw [hignored]
    exact .mk hname hbrace hbehind hbody
  · intro h
    cases h with
    | mk hname hbrace hbehind hbody =>
      obtain ⟨items, hmany, hignored, rfl⟩ := many_nextItem_iff.2 ⟨_, hbody, rfl⟩
      rw [hignored]
      exact ⟨_, _, ⟨rfl, hname⟩, _, _, _, _, rfl, hbrace, hbehind, items, _, hmany, rfl, rfl⟩

end Bodies

/-! ## 3. Files -/

/-- The next statement, or the end of the file, where the cursor stays. -/
inductive NextStatement : List Token → Option Statement → List Token → Prop
  | done {comments : List Token} {mark : Token} (hcomments : Comments comments)
      (hmark : mark.kind = .endOfFile) : NextStatement (comments ++ [mark]) none [mark]
  | header {comments ts input rest : List Token} {h : Header} (hcomments : Comments comments)
      (hheader : HeaderLine ts h) (hinput : input = ts ++ rest) :
      NextStatement (comments ++ input) (some (.header h)) rest
  | message {comments input rest : List Token} {word : Token} {m : MessageDecl}
      (hcomments : Comments comments) (hword : Keyword "message" word)
      (hmessage : Grammar.Definition Grammar.Field (said comments) input m rest) :
      NextStatement (comments ++ word :: input) (some (.message m)) rest
  | enumeration {comments input rest : List Token} {word : Token} {e : EnumDecl}
      (hcomments : Comments comments) (hword : Keyword "enum" word)
      (henum : Grammar.Definition Numbered (said comments) input e rest) :
      NextStatement (comments ++ word :: input) (some (.enumeration e)) rest

theorem recognizes_importing :
    Recognizes (do
      if !(← eat "public") then
        let _ ← eat "weak"
      let path ← stringValue
      expect ";"
      return some (.header ⟨.importing, path, path⟩)) fun ts a rest =>
        ∃ access path semicolon, ts = access ++ path :: semicolon :: rest ∧
          (access = [] ∨ ∃ t, (Keyword "public" t ∨ Keyword "weak" t) ∧ access = [t]) ∧
          path.kind = .string ∧ Symbol ";" semicolon ∧
          a = some (Statement.header ⟨.importing, unquote path.text, unquote path.text⟩) := by
  have hpublic := spells_keyword (w := "public") (by decide)
  have hweak := spells_keyword (w := "weak") (by decide)
  have hpath := recognizes_stringValue.bind fun path =>
    (recognizes_expect spells_semicolon).bind fun _ =>
      recognizes_pure (some (Statement.header ⟨.importing, path, path⟩))
  refine (Recognizes.unlessEat hpublic hpath ((recognizes_eat hweak).bind fun _ => hpath)).congr ?_
  intro ts a rest _
  constructor
  · rintro (⟨t, _, rfl, hword, _, _, ⟨path, rfl, hkind, rfl⟩, _, _, ⟨semicolon, rfl, hsemicolon⟩,
        rfl, rfl⟩ |
      ⟨-, _, _, hway, _, _, ⟨path, rfl, hkind, rfl⟩, _, _, ⟨semicolon, rfl, hsemicolon⟩, rfl, rfl⟩)
    · exact ⟨[t], path, semicolon, rfl, .inr ⟨t, .inl hword, rfl⟩, hkind, hsemicolon, rfl⟩
    · rcases hway with ⟨-, t, rfl, hword⟩ | ⟨-, -, rfl⟩
      · exact ⟨[t], path, semicolon, rfl, .inr ⟨t, .inr hword, rfl⟩, hkind, hsemicolon, rfl⟩
      · exact ⟨[], path, semicolon, rfl, .inl rfl, hkind, hsemicolon, rfl⟩
  · rintro ⟨access, path, semicolon, rfl, haccess, hkind, hsemicolon, rfl⟩
    have hread : ∃ s middle, (∃ t, path :: semicolon :: rest = t :: middle ∧ t.kind = .string ∧
        s = unquote t.text) ∧ ∃ u end_, (∃ t, middle = t :: end_ ∧ Symbol ";" t) ∧
          some (Statement.header ⟨.importing, unquote path.text, unquote path.text⟩) =
            some (Statement.header ⟨.importing, s, s⟩) ∧ rest = end_ :=
      ⟨_, _, ⟨path, rfl, hkind, rfl⟩, (), _, ⟨semicolon, rfl, hsemicolon⟩, rfl, rfl⟩
    rcases haccess with rfl | ⟨t, hword | hword, rfl⟩
    · refine .inr ⟨?_, false, _, .inr ⟨rfl, ?_, rfl⟩, hread⟩
      · simp [notAhead_cons, Keyword, hkind]
      · simp [notAhead_cons, Keyword, hkind]
    · exact .inl ⟨t, _, rfl, hword, hread⟩
    · exact .inr ⟨notAhead_keyword hword (by decide), true, _, .inl ⟨rfl, t, rfl, hword⟩, hread⟩

/-- A statement from its keyword on, where `before` are the comments in front of it. -/
inductive Stated (before : List String) : List Token → Option Statement → List Token → Prop
  | header {ts input rest : List Token} {h : Header} (hheader : HeaderLine ts h)
      (hinput : input = ts ++ rest) : Stated before input (some (.header h)) rest
  | message {input rest : List Token} {word : Token} {m : MessageDecl}
      (hword : Keyword "message" word)
      (hmessage : Grammar.Definition Grammar.Field before input m rest) :
      Stated before (word :: input) (some (.message m)) rest
  | enumeration {input rest : List Token} {word : Token} {e : EnumDecl}
      (hword : Keyword "enum" word) (henum : Grammar.Definition Numbered before input e rest) :
      Stated before (word :: input) (some (.enumeration e)) rest

/-- The six keywords of statements exclude each other, so the order of the attempts does not
matter. -/
theorem recognizes_stated (before : List String) (t : Token) :
    Recognizes (do
      if ← eat "syntax" then
        expect "="
        let value ← stringValue
        expect ";"
        return some (.header ⟨.level, "syntax", value⟩)
      if ← eat "package" then
        let name ← identifier
        expect ";"
        let value := String.ofList (name.text.toList.dropWhile (· = '.'))
        return some (.header ⟨.package, "package", value⟩)
      if ← eat "import" then
        if !(← eat "public") then
          let _ ← eat "weak"
        let path ← stringValue
        expect ";"
        return some (.header ⟨.importing, path, path⟩)
      if ← eat "option" then
        let (name, value) ← setting
        expect ";"
        return some (.header ⟨.option, name, value⟩)
      if ← eat "message" then return some (.message (← definition field before))
      if ← eat "enum" then return some (.enumeration (← definition constant before))
      failAt t (.unexpected t.text)) (Stated before) := by
  have hsyntax := spells_keyword (w := "syntax") (by decide)
  have hpackage := spells_keyword (w := "package") (by decide)
  have himport := spells_keyword (w := "import") (by decide)
  have hoption := spells_keyword (w := "option") (by decide)
  have hmessage := spells_keyword (w := "message") (by decide)
  have henum := spells_keyword (w := "enum") (by decide)
  refine (Recognizes.ifEat hsyntax ((recognizes_expect spells_equals).bind fun _ =>
      recognizes_stringValue.bind fun value => (recognizes_expect spells_semicolon).bind fun _ =>
      recognizes_pure _) <|
    Recognizes.ifEat hpackage (recognizes_identifier.bind fun name =>
      (recognizes_expect spells_semicolon).bind fun _ => recognizes_pure _) <|
    Recognizes.ifEat himport recognizes_importing <|
    Recognizes.ifEat hoption (recognizes_setting.bind fun s =>
      (recognizes_expect spells_semicolon).bind fun _ => recognizes_pure _) <|
    Recognizes.ifEat hmessage ((recognizes_definition startsNamed_of_field recognizes_field
      steady_field before).bind fun m => recognizes_pure _) <|
    Recognizes.ifEat henum ((recognizes_definition startsNamed_of_numbered recognizes_numbered
      steady_constant before).bind fun e => recognizes_pure _) <|
    recognizes_failAt t _).congr ?_
  intro ts a rest _
  constructor
  · intro h
    rcases h with ⟨word, _, rfl, hword, _, _, ⟨equals, rfl, hequals⟩, _, _,
      ⟨value, rfl, hvalue, rfl⟩, _, _, ⟨semicolon, rfl, hsemicolon⟩, rfl, rfl⟩ | ⟨-, h⟩
    · exact .header (.level hword hequals hvalue hsemicolon) rfl
    rcases h with ⟨word, _, rfl, hword, name, _, ⟨rfl, hname⟩, _, _, ⟨semicolon, rfl, hsemicolon⟩,
      rfl, rfl⟩ | ⟨-, h⟩
    · exact .header (.package hword hname hsemicolon) rfl
    rcases h with ⟨word, _, rfl, hword, access, path, semicolon, rfl, haccess, hpath, hsemicolon,
      rfl⟩ | ⟨-, h⟩
    · exact .header (.importing hword haccess hpath hsemicolon) (by simp)
    rcases h with ⟨word, _, rfl, hword, s, _, ⟨phrase, rfl, hsetting⟩, _, _,
      ⟨semicolon, rfl, hsemicolon⟩, rfl, rfl⟩ | ⟨-, h⟩
    · exact .header (.option hword hsetting hsemicolon) (by simp)
    rcases h with ⟨word, _, rfl, hword, m, _, hm, rfl, rfl⟩ | ⟨-, h⟩
    · exact .message hword hm
    rcases h with ⟨word, _, rfl, hword, e, _, he, rfl, rfl⟩ | ⟨-, h⟩
    · exact .enumeration hword he
    · exact h.elim
  · intro h
    cases h with
    | header hheader hinput =>
      subst hinput
      cases hheader with
      | level hword hequals hvalue hsemicolon =>
        exact .inl ⟨_, _, rfl, hword, (), _, ⟨_, rfl, hequals⟩, _, _, ⟨_, rfl, hvalue, rfl⟩, (), _,
          ⟨_, rfl, hsemicolon⟩, rfl, rfl⟩
      | package hword hname hsemicolon =>
        refine .inr ⟨notAhead_keyword hword (by decide), .inl ?_⟩
        exact ⟨_, _, rfl, hword, _, _, ⟨rfl, hname⟩, (), _, ⟨_, rfl, hsemicolon⟩, rfl, rfl⟩
      | importing hword haccess hpath hsemicolon =>
        refine .inr ⟨notAhead_keyword hword (by decide), .inr
          ⟨notAhead_keyword hword (by decide), .inl ?_⟩⟩
        exact ⟨_, _, rfl, hword, _, _, _, by simp, haccess, hpath, hsemicolon, rfl⟩
      | option hword hsetting hsemicolon =>
        refine .inr ⟨notAhead_keyword hword (by decide), .inr
          ⟨notAhead_keyword hword (by decide), .inr ⟨notAhead_keyword hword (by decide), .inl ?_⟩⟩⟩
        exact ⟨_, _, rfl, hword, _, _, ⟨_, by simp, hsetting⟩, (), _, ⟨_, rfl, hsemicolon⟩, rfl,
          rfl⟩
    | message hword hm =>
      refine .inr ⟨notAhead_keyword hword (by decide), .inr ⟨notAhead_keyword hword (by decide),
        .inr ⟨notAhead_keyword hword (by decide), .inr ⟨notAhead_keyword hword (by decide),
          .inl ?_⟩⟩⟩⟩
      exact ⟨_, _, rfl, hword, _, _, hm, rfl, rfl⟩
    | enumeration hword he =>
      refine .inr ⟨notAhead_keyword hword (by decide), .inr ⟨notAhead_keyword hword (by decide),
        .inr ⟨notAhead_keyword hword (by decide), .inr ⟨notAhead_keyword hword (by decide),
          .inr ⟨notAhead_keyword hword (by decide), .inl ?_⟩⟩⟩⟩⟩
      exact ⟨_, _, rfl, hword, _, _, he, rfl, rfl⟩

/-- A statement starts with a word, so it is neither a comment nor the end of the file. -/
theorem Stated.exists_head {a : Option Statement} (h : Stated before ts a rest) :
    ∃ t ts', ts = t :: ts' ∧ t.kind = .identifier := by
  cases h with
  | header hheader hinput =>
    subst hinput
    cases hheader with
    | level hword => exact ⟨_, _, rfl, hword.1⟩
    | package hword => exact ⟨_, _, rfl, hword.1⟩
    | importing hword => exact ⟨_, _, rfl, hword.1⟩
    | option hword => exact ⟨_, _, rfl, hword.1⟩
  | message hword _ => exact ⟨_, _, rfl, hword.1⟩
  | enumeration hword _ => exact ⟨_, _, rfl, hword.1⟩

theorem recognizes_statement : Recognizes statement NextStatement := by
  unfold statement
  refine (recognizes_comments.bind fun before => recognizes_peek.bind fun t =>
    Recognizes.ite (recognizes_pure _) (recognizes_stated before t)).congr ?_
  intro ts a rest hts
  constructor
  · rintro ⟨_, input, ⟨cs, rfl, hcs, rfl, -⟩, t, _, ⟨ht, rfl⟩, ⟨hend, rfl, rfl⟩ | ⟨-, hstated⟩⟩
    · have hinput := scanned_of_append hts fun t ht => by simp [hcs t ht]
      rw [hinput.eq_mark ht hend]
      exact .done hcs hend
    · cases hstated with
      | header hheader hinput => exact .header hcs hheader hinput
      | message hword hm => exact .message hcs hword hm
      | enumeration hword he => exact .enumeration hcs hword he
  · intro h
    have hstated {cs input : List Token} {s : Statement} (hcs : Comments cs)
        (hs : Stated (said cs) input (some s) rest) : ∃ before middle,
          (∃ cs', cs ++ input = cs' ++ middle ∧ Comments cs' ∧ before = said cs' ∧
            NotAhead (fun t => t.kind = .comment) middle) ∧
          ∃ t middle', (middle.head? = some t ∧ middle' = middle) ∧
            (t.kind = .endOfFile ∧ some s = none ∧ rest = middle' ∨
              ¬ t.kind = .endOfFile ∧ Stated before middle' (some s) rest) := by
      obtain ⟨t, ts', rfl, ht⟩ := hs.exists_head
      refine ⟨_, _, ⟨cs, rfl, hcs, rfl, ?_⟩, t, _, ⟨rfl, rfl⟩, .inr ⟨by simp [ht], hs⟩⟩
      simp [notAhead_cons, ht]
    cases h with
    | @done cs mark hcs hmark =>
      refine ⟨_, _, ⟨_, rfl, hcs, rfl, ?_⟩, mark, _, ⟨rfl, rfl⟩, .inl ⟨hmark, rfl, rfl⟩⟩
      simp [notAhead_cons, hmark]
    | header hcs hheader hinput => exact hstated hcs (.header hheader hinput)
    | message hcs hword hm => exact hstated hcs (.message hword hm)
    | enumeration hcs hword he => exact hstated hcs (.enumeration hword he)

theorem many_nextStatement_iff {d : Document} :
    (∃ statements rest, Many NextStatement ts statements rest ∧ d = ofStatements statements) ↔
      File ts d := by
  constructor
  · rintro ⟨statements, rest, hmany, rfl⟩
    induction hmany with
    | done hnone =>
      cases hnone with
      | done hcs hmark => exact .done hcs hmark
    | step hnext _ ih =>
      cases hnext with
      | header hcs hheader hinput =>
        rw [hinput, ← List.append_assoc]
        exact .header hcs hheader ih
      | message hcs hword hm => exact .message hcs hword hm ih
      | enumeration hcs hword he => exact .enumeration hcs hword he ih
  · intro h
    induction h with
    | done hcs hmark => exact ⟨[], _, .done (.done hcs hmark), rfl⟩
    | header hcs hheader _ ih =>
      obtain ⟨statements, rest, hmany, rfl⟩ := ih
      rw [List.append_assoc]
      exact ⟨_, rest, .step (.header hcs hheader rfl) hmany, rfl⟩
    | message hcs hword hm _ ih =>
      obtain ⟨statements, rest, hmany, rfl⟩ := ih
      exact ⟨_, rest, .step (.message hcs hword hm) hmany, rfl⟩
    | enumeration hcs hword he _ ih =>
      obtain ⟨statements, rest, hmany, rfl⟩ := ih
      exact ⟨_, rest, .step (.enumeration hcs hword he) hmany, rfl⟩

theorem ofTokens_eq_ok_iff (hts : Scanned ts) (d : Document) : ofTokens ts = .ok d ↔ File ts d := by
  have hstatements := recognizes_statement.collect itemized_statement.shorter
  obtain ⟨last, hlast⟩ := Option.ne_none_iff_exists'.1 (mt List.getLast?_eq_none_iff.1 hts.ne_nil)
  rw [← many_nextStatement_iff, ofTokens]
  simp only [hlast]
  constructor
  · intro h
    split at h
    · cases h
    next statements c' hrun =>
      cases h
      have hsame := hstatements.last hrun
      refine ⟨statements, c'.ahead, ?_, rfl⟩
      refine (hstatements.yields (c := ⟨ts, last, 0⟩) hts).1 ⟨c'.line, ?_⟩
      rw [hrun, ← hsame]
  · rintro ⟨statements, rest, hmany, rfl⟩
    obtain ⟨line, hrun⟩ := (hstatements.yields (c := ⟨ts, last, 0⟩) hts).2 hmany
    rw [hrun]

/-! ## 4. Texts -/

theorem ofText_eq_ok_iff {text : String} {d : Document} :
    ofText text = .ok d ↔ ∃ ts, Token.tokenize text = .ok ts ∧ ofTokens ts = .ok d := by
  rw [ofText]
  cases Token.tokenize text with
  | error => simp
  | ok ts =>
    cases hread : ofTokens ts with
    | ok d' => simp [hread]
    | error e => cases e <;> simp [hread]

/-- The tokens of a text are read as the document `d` if and only if `d` derives from them by the
rules of the grammar. -/
theorem ofTokens_tokenize_eq_ok_iff {text : String} {ts : List Token}
    (h : Token.tokenize text = .ok ts) (d : Document) : ofTokens ts = .ok d ↔ File ts d :=
  ofTokens_eq_ok_iff (Token.scanned_of_tokenize h) d

/-- Keywords can stand where names do: the field `map` has the type `optional`. -/
def keywordText : String :=
  "// first\nmessage message \x7b repeated optional map = 1 [ignore = true]; // behind\n reserved 2;\x7d"

def keywordDocument : Document where
  headers := []
  messages := [{
    name := "message"
    comment := some "first"
    ignored := false
    members := [{
      name := "map"
      comment := some "behind"
      ignored := true
      number := 1
      type := .named "optional"
      cardinality := .repeated
      position := ⟨2, 37⟩ }]
    position := ⟨2, 9⟩ }]
  enums := []

theorem keywordDocument_derives :
    ∃ ts, Token.tokenize keywordText = .ok ts ∧ File ts keywordDocument := by
  have hread : ofText keywordText = .ok keywordDocument := by decide +kernel
  obtain ⟨ts, hts, hdocument⟩ := ofText_eq_ok_iff.1 hread
  exact ⟨ts, hts, (ofTokens_tokenize_eq_ok_iff hts keywordDocument).1 hdocument⟩

end SchemaGen.Document
