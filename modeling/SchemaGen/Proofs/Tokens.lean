import SchemaGen.Token.Scan

/-!
# The tokens of a text

What can be relied on once a text is cut into tokens: the kind of a token is that of its characters,
its characters were a lexeme of the text, and the mark for the end of the file stands last and
nowhere else.
The main result is `scanned_of_tokenize`: the tokens of a text are of this form.
-/

namespace SchemaGen.Token

/-! ## Definitions -/

/-- The characters of a token were a lexeme at the front of some text, and they tell its kind. -/
structure IsLexeme (t : Token) : Prop where
  kind : t.kind = kindOf t.text.toList
  front : ∃ cs n, lexemeLength? cs = some n ∧ t.text.toList = cs.take n

/-- Lexemes, and the end of the file behind them. -/
inductive Scanned : List Token → Prop
  | last {t : Token} (kind : t.kind = .endOfFile) (text : t.text = "") : Scanned [t]
  | cons {t : Token} {ts : List Token} (lexeme : t.IsLexeme) (rest : Scanned ts) : Scanned (t :: ts)

/-! ## Scanning -/

theorem kindOf_ne_endOfFile (cs : List Char) : kindOf cs ≠ .endOfFile := by
  cases cs with
  | nil => nofun
  | cons c cs => grind [kindOf]

variable {t : Token} {ts : List Token}

theorem IsLexeme.kind_ne_endOfFile (h : t.IsLexeme) : t.kind ≠ .endOfFile :=
  h.kind ▸ kindOf_ne_endOfFile _

theorem Scanned.ne_nil (h : Scanned ts) : ts ≠ [] := by
  cases h <;> simp

theorem Scanned.tail (h : Scanned (t :: ts)) (hkind : t.kind ≠ .endOfFile) : Scanned ts := by
  cases h with
  | last hend => exact absurd hend hkind
  | cons _ hrest => exact hrest

theorem Scanned.eq_mark (h : Scanned ts) (ht : ts.head? = some t) (hkind : t.kind = .endOfFile) :
    ts = [t] := by
  cases h with
  | last => rw [Option.some.inj ht]
  | cons hlexeme _ =>
    obtain rfl := Option.some.inj ht
    exact absurd hkind hlexeme.kind_ne_endOfFile

/-- Only the last token of a text marks its end. -/
theorem Scanned.isLexeme_of_mem {rest : List Token} (h : Scanned (ts ++ rest)) (hne : rest ≠ [])
    (ht : t ∈ ts) : t.IsLexeme := by
  induction ts with
  | nil => cases ht
  | cons t' ts ih =>
    rw [List.cons_append] at h
    have hmore : ts ++ rest ≠ [] := List.append_ne_nil_of_right_ne_nil ts hne
    generalize ts ++ rest = more at h hmore ih
    cases h with
    | last => exact absurd rfl hmore
    | cons hlexeme hrest =>
      rcases List.mem_cons.1 ht with rfl | ht
      · exact hlexeme
      · exact ih hrest ht

theorem scanned_of_scan {p : Text.Position} {cs : List Char} (h : scan p cs = .ok ts) :
    Scanned ts := by
  fun_induction scan p cs generalizing ts with
  | case1 => cases h
  | case2 p cs n hn tokens hrest hblank ih =>
    cases h
    exact ih hrest
  | case3 p cs n hn tokens hrest hblank ih =>
    cases h
    refine .cons ⟨?_, cs, n, hn, ?_⟩ (ih hrest)
    · rw [String.toList_ofList]
    · rw [String.toList_ofList]
  | case4 =>
    cases h
    exact .last rfl rfl
  | case5 => cases h

theorem scanned_of_tokenize {text : String} (h : tokenize text = .ok ts) : Scanned ts :=
  scanned_of_scan h

end SchemaGen.Token
