import SchemaGen.Proofs.RoundTrip

/-!
# Strings that pass through a text

A string goes through three notations on its way: `quote` writes it, the tokens of the text cut the
literal off again, and `unquote` reads it. They treat escapes differently. The writer escapes what
must be escaped, the lexer only passes over the character behind a backslash, and the reader knows
what an escape stands for. Whatever the string holds, it comes through as it was.

Results:
1. `tokenize_quote`: a literal alone is one token.
2. `ofText_header`: a statement with a literal is read as its header.
3. `quoted_strings_survive`: both, for every string.
-/

namespace SchemaGen

open Text (Position quote unquote)
open Token (IsName IsWord Row scan tokenize)

/-! ## 1. A literal alone -/

namespace Text.Position

theorem after_of_line {p : Position} {cs : List Char} (h : '\n' ∉ cs) :
    p.after cs = ⟨p.line, p.column + cs.length⟩ := by
  induction cs generalizing p with
  | nil => rfl
  | cons c cs ih =>
    obtain ⟨hc, hcs⟩ := not_or.1 (mt List.mem_cons.2 h)
    have hstep : p.step c = ⟨p.line, p.column + 1⟩ := if_neg (Ne.symm hc)
    have hrest := ih (p := p.step c) hcs
    rw [hstep] at hrest
    rw [after, List.foldl_cons, hstep, List.length_cons, Nat.add_comm cs.length 1, ← Nat.add_assoc]
    exact hrest

end Text.Position

namespace Token

theorem scan_nil (p : Position) : scan p [] = .ok [⟨.endOfFile, "", p⟩] := by
  rw [scan]
  rfl

/-- No character of a literal ends it early or starts another token, and none ends its line. -/
theorem tokenize_quote (s : String) :
    tokenize (quote s) = .ok [⟨.string, quote s, ⟨1, 1⟩⟩,
      ⟨.endOfFile, "", ⟨1, 1 + (quote s).length⟩⟩] := by
  have hword := isWord_quote s
  have hlength : lexemeLength? ((quote s).toList ++ []) = some (quote s).toList.length := by
    have hstring := stringLength?_quote s []
    obtain ⟨rest, hquote⟩ : ∃ rest, (quote s).toList = '"' :: rest := ⟨_, String.toList_ofList⟩
    rw [hquote, List.cons_append] at hstring ⊢
    rw [lexemeLength?_of_ne_slash (by decide), hstring]
    rfl
  have hend : Position.start.after (quote s).toList = ⟨1, 1 + (quote s).length⟩ :=
    Position.after_of_line hword.newline
  have hscan := scan_word (p := .start) hword.visible hlength (scan_nil _)
  rw [List.append_nil, RoundTripLemmas.kindOf_quote, hend] at hscan
  exact hscan

/-- Words with a semicolon behind them, at the end of a text. -/
theorem scan_closed {words : List String} (hwords : ∀ w ∈ words, IsWord w.toList) (p : Position) :
    ∃ row mark, scan p (Document.lineChars (words ++ [";"])) = .ok (row ++ [mark]) ∧
      Row p.line (words ++ [";"]) row ∧ mark.kind = .endOfFile := by
  induction words generalizing p with
  | nil =>
    have hsemicolon : scan p (";".toList ++ []) = .ok [⟨.symbol, ";", p⟩, _] :=
      scan_word ⟨';', [], rfl, by decide⟩ (lexemeLength?_symbol (by decide) []) (scan_nil _)
    exact ⟨[_], _, hsemicolon, .cons ⟨rfl, rfl, rfl⟩ .nil, rfl⟩
  | cons w ws ih =>
    obtain ⟨hw, hws⟩ := List.forall_mem_cons.1 hwords
    obtain ⟨v, vs, hv⟩ : ∃ v vs, ws ++ [";"] = v :: vs :=
      List.exists_cons_of_ne_nil (by simp)
    have hvisible : ∃ c cs, v.toList = c :: cs ∧ Text.isBlank c = false := by
      cases ws with
      | nil =>
        obtain rfl := (List.cons.inj hv).1
        exact ⟨';', [], rfl, by decide⟩
      | cons u us =>
        obtain rfl := (List.cons.inj hv).1
        exact (hws u List.mem_cons_self).visible
    obtain ⟨q, hq, hgap⟩ := scan_between w vs hvisible (p.after w.toList)
      (Document.gap v vs ++ Document.lineChars vs)
    obtain ⟨row, mark, hrow, hrows, hmark⟩ := ih hws q
    rw [hv] at hrow hrows
    rw [hq, line_after hw.newline] at hrows
    rw [List.cons_append, hv]
    exact ⟨⟨kindOf w.toList, w, p⟩ :: row, mark,
      scan_word hw.visible (lexemeLength?_before hw _) (hgap.trans hrow),
      .cons ⟨rfl, rfl, rfl⟩ hrows, hmark⟩

end Token

/-! ## 2. Statements -/

namespace Document

open Grammar (File)

/-- A statement that is no definition, written as a text of its own. -/
theorem ofText_header {h : Header} (hh : h.Printable) :
    ofText (String.ofList (lineChars h.words)) = .ok ⟨[h], [], []⟩ := by
  obtain ⟨words, hwords, hclosed⟩ : ∃ words, (∀ w ∈ words, IsWord w.toList) ∧
      h.words = words ++ [";"] := by
    have hall := RoundTripLemmas.words_header hh
    refine ⟨h.words.dropLast, fun w hw => hall w (List.dropLast_subset _ hw), ?_⟩
    unfold Header.words
    split <;> rfl
  obtain ⟨row, mark, hscan, hrow, hmark⟩ := Token.scan_closed hwords .start
  rw [← hclosed] at hscan hrow
  have hts : tokenize (String.ofList (lineChars h.words)) = .ok (row ++ [mark]) := by
    rw [tokenize, String.toList_ofList]
    exact hscan
  have hnone : Grammar.Comments [] := List.forall_mem_nil _
  have hfile : File ([] ++ row ++ ([] ++ [mark])) ⟨[h], [], []⟩ :=
    .header hnone (RoundTripLemmas.headerLine_of_row hh hrow) (.done hnone hmark)
  have hread := (ofTokens_eq_ok_iff (Token.scanned_of_tokenize hts) _).2 hfile
  exact ofText_eq_ok_iff.2 ⟨_, hts, hread⟩

/-- The words that stand directly beside others. -/
def marks : List String :=
  ["[", "<", ";", ",", "]", ">"]

theorem not_mem_marks {w : String} (h : Token.kindOf w.toList ≠ .symbol) : w ∉ marks := by
  have hmarks : ∀ mark ∈ marks, Token.kindOf mark.toList = .symbol := by decide
  exact fun hw => h (hmarks w hw)

theorem tight_eq_false {w v : String} (hw : w ∉ marks) (hv : v ∉ marks) : tight w v = false := by
  simp only [marks, List.mem_cons, not_or] at hw hv
  simp [tight, hw, hv]

theorem quote_not_mem_marks (s : String) : quote s ∉ marks :=
  not_mem_marks (RoundTripLemmas.kindOf_quote s ▸ nofun)

theorem lineChars_option {name : String} (hname : IsName name.toList) (s : String) :
    lineChars (Header.words ⟨.option, name, s⟩) =
      ("option " ++ name ++ " = " ++ quote s ++ ";").toList := by
  have hmark : name ∉ marks := not_mem_marks (RoundTripLemmas.kindOf_name hname ▸ nofun)
  have hfirst : tight "option" name = false := tight_eq_false (by decide) hmark
  have hsecond : tight name "=" = false := tight_eq_false hmark (by decide)
  have hthird : tight "=" (quote s) = false := tight_eq_false (by decide) (quote_not_mem_marks s)
  have hlast : tight (quote s) ";" = true := by simp [tight]
  simp [Header.words, lineChars, gap, hfirst, hsecond, hthird, hlast]

theorem lineChars_import (s : String) :
    lineChars (Header.words ⟨.importing, s, s⟩) = ("import " ++ quote s ++ ";").toList := by
  have hfirst : tight "import" (quote s) = false :=
    tight_eq_false (by decide) (quote_not_mem_marks s)
  have hlast : tight (quote s) ";" = true := by simp [tight]
  simp [Header.words, lineChars, gap, hfirst, hlast]

end Document

/-! ## 3. Strings -/

/-- Every string survives: its literal is one token, reading the token gives the string back, and so
do an option and an import with the literal. -/
theorem quoted_strings_survive (s : String) :
    tokenize (quote s) = .ok [⟨.string, quote s, ⟨1, 1⟩⟩,
        ⟨.endOfFile, "", ⟨1, 1 + (quote s).length⟩⟩] ∧
      unquote (quote s) = s ∧
      (∀ name : String, IsName name.toList →
        Document.ofText ("option " ++ name ++ " = " ++ quote s ++ ";") =
          .ok ⟨[⟨.option, name, s⟩], [], []⟩) ∧
      Document.ofText ("import " ++ quote s ++ ";") = .ok ⟨[⟨.importing, s, s⟩], [], []⟩ := by
  refine ⟨Token.tokenize_quote s, Text.unquote_quote s, fun name hname => ?_, ?_⟩
  · rw [← String.ofList_toList (s := _ ++ ";"), ← Document.lineChars_option hname]
    exact Document.ofText_header hname
  · rw [← String.ofList_toList (s := _ ++ ";"), ← Document.lineChars_import]
    exact Document.ofText_header rfl

/-- A quote, a backslash, a newline, a control character and marks of comments. -/
theorem quoted_strings_survive_marks :
    quote "\"\\\n\x01//*é" = "\"\\\"\\\\\\n\\u0001//*é\"" ∧ IsName "x.y".toList ∧
      Document.ofText "option x.y = \"\\\"\\\\\\n\\u0001//*é\";" =
        .ok ⟨[⟨.option, "x.y", "\"\\\n\x01//*é"⟩], [], []⟩ := by
  have hquote : quote "\"\\\n\x01//*é" = "\"\\\"\\\\\\n\\u0001//*é\"" := by decide
  have hname : IsName "x.y".toList := by
    unfold IsName
    decide
  obtain ⟨-, -, hoption, -⟩ := quoted_strings_survive "\"\\\n\x01//*é"
  have hread := hoption "x.y" hname
  rw [hquote] at hread
  exact ⟨hquote, hname, hread⟩

end SchemaGen
