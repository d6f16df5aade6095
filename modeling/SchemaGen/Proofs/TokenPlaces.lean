import SchemaGen.Proofs.LexemePattern

/-!
# Where tokens stand

A text is cut from its front into matches of the pattern of lexemes, as far as they follow each
other without a gap (`Cut`). If this goes through to the end, the tokens are the matches that are no
blanks, so that with the blanks between them they make up the text again (`Spread`). If it stops
before the end, the fault stands at the place where it stops.

Positions are kept up to date while a text is cut, lexeme by lexeme. What they should be is said by
counting in the text before (`Position.counted`).

Results:
1. `counted_append`: positions that are kept up to date are those that are counted.
2. `scan_explained`: what cutting a text comes to, from any place on.
3. `offending_spec`: where the text that a fault quotes ends.
4. `tokenize_lossless`: the tokens of a text, or its fault.
-/

namespace SchemaGen

/-! ## Definitions -/

/-- The position behind the text `before`, counted: one line more than it has newlines, and one
column more than it has characters behind the last of them. -/
def Text.Position.counted (before : List Char) : Text.Position where
  line := 1 + before.count '\n'
  column := 1 + (before.reverse.takeWhile (· ≠ '\n')).length

namespace Token

open Text (Position isBlank quote)

/-- The pattern of lexemes matches at the front of `cs`, which stands behind `before`. -/
def MatchesAt (before cs : List Char) : Prop :=
  (Pattern.lexeme.rest? before.getLast? cs).isSome

/-- `Cut before lexemes rest`: behind the text `before`, the lexemes follow each other without a gap,
and `rest` follows them. Each lexeme is what the pattern matches at its place. -/
inductive Cut : List Char → List (List Char) → List Char → Prop
  | stop {before rest : List Char} : Cut before [] rest
  | next {before lexeme rest : List Char} {lexemes : List (List Char)}
      (hmatch : Pattern.lexeme.rest? before.getLast? (lexeme ++ (lexemes.flatten ++ rest)) =
        some (lexemes.flatten ++ rest))
      (hmore : Cut (before ++ lexeme) lexemes rest) : Cut before (lexeme :: lexemes) rest

/-- `Spread before ts cs`: behind the text `before`, the text `cs` is made of the tokens `ts` in their
order with nothing but blanks between them. Each token stands at the position that is counted, and
only the last one marks the end of the file. -/
inductive Spread : List Char → List Token → List Char → Prop
  | last {before blanks : List Char} {mark : Token} (hblanks : ∀ c ∈ blanks, isBlank c = true)
      (hkind : mark.kind = .endOfFile) (htext : mark.text = "")
      (hposition : mark.position = .counted (before ++ blanks)) : Spread before [mark] blanks
  | cons {before blanks rest : List Char} {t : Token} {ts : List Token}
      (hblanks : ∀ c ∈ blanks, isBlank c = true) (hkind : t.kind ≠ .endOfFile)
      (hposition : t.position = .counted (before ++ blanks))
      (hmore : Spread (before ++ blanks ++ t.text.toList) ts rest) :
      Spread before (t :: ts) (blanks ++ t.text.toList ++ rest)

end Token

/-! ## 1. Positions -/

namespace Text.Position

theorem counted_snoc (before : List Char) (c : Char) :
    counted (before ++ [c]) = (counted before).step c := by
  by_cases hc : c = '\n'
  · simp [counted, step, hc, Nat.add_assoc]
  · simp [counted, step, hc, Nat.add_assoc]

theorem counted_append (before cs : List Char) :
    counted (before ++ cs) = (counted before).after cs := by
  induction cs generalizing before with
  | nil => rw [List.append_nil]; rfl
  | cons c cs ih =>
    rw [List.append_cons, ih, counted_snoc]
    rfl

end Text.Position

namespace Token

open Text (Position isBlank quote)

/-! ## 2. Cutting -/

variable {cs before : List Char}

theorem matchesAt_iff : MatchesAt before cs ↔ (lexemeLength? cs).isSome = true := by
  rw [MatchesAt, Pattern.rest?_lexeme, Option.isSome_map]

theorem Spread.ne_nil {ts : List Token} (h : Spread before ts cs) : ts ≠ [] := by
  cases h <;> simp

theorem Spread.blanks {blanks : List Char} {ts : List Token} (h : Spread (before ++ blanks) ts cs)
    (hblanks : ∀ c ∈ blanks, isBlank c = true) : Spread before ts (blanks ++ cs) := by
  have happend {more : List Char} (hmore : ∀ c ∈ more, isBlank c = true) :
      ∀ c ∈ blanks ++ more, isBlank c = true :=
    List.forall_mem_append.2 ⟨hblanks, hmore⟩
  cases h with
  | last hmore hkind htext hposition =>
    rw [List.append_assoc] at hposition
    exact .last (happend hmore) hkind htext hposition
  | cons hmore hkind hposition hrest =>
    rw [List.append_assoc before] at hposition hrest
    rw [← List.append_assoc, ← List.append_assoc]
    exact .cons (happend hmore) hkind hposition hrest

/-- Lexemes of `cs` and the text `rest` behind them explain the result of cutting `cs` behind
`before`. -/
def Explains (before cs : List Char) (lexemes : List (List Char)) (rest : List Char) :
    Except SyntaxError (List Token) → Prop
  | .ok ts => rest = [] ∧ Spread before ts cs ∧
      ts.dropLast.map (·.text.toList) = lexemes.filter fun lexeme => !lexeme.all isBlank
  | .error e => rest ≠ [] ∧ lexemeLength? rest = none ∧
      e = ⟨.noToken (String.ofList (offending rest)), .counted (before ++ lexemes.flatten)⟩

theorem Cut.of_lexemeLength? {rest : List Char} {lexemes : List (List Char)} {n : Nat}
    (hn : lexemeLength? cs = some n) (hflatten : cs.drop n = lexemes.flatten ++ rest)
    (hcut : Cut (before ++ cs.take n) lexemes rest) :
    cs = (cs.take n :: lexemes).flatten ++ rest ∧ Cut before (cs.take n :: lexemes) rest := by
  constructor
  · rw [List.flatten_cons, List.append_assoc, ← hflatten, List.take_append_drop]
  · refine .next ?_ hcut
    rw [← hflatten, Pattern.rest?_lexeme, List.take_append_drop, hn]
    rfl

namespace Explains

variable {before cs rest : List Char} {lexemes : List (List Char)} {n : Nat} {tokens : List Token}

/-- A fault further on stands where it stands. -/
theorem fault {e : SyntaxError}
    (h : Explains (before ++ cs.take n) (cs.drop n) lexemes rest (.error e)) :
    Explains before cs (cs.take n :: lexemes) rest (.error e) := by
  obtain ⟨hne, hnone, he⟩ := h
  rw [List.append_assoc, ← List.flatten_cons] at he
  exact ⟨hne, hnone, he⟩

/-- Blanks are passed over. -/
theorem blank (hblank : (cs.take n).all isBlank = true)
    (h : Explains (before ++ cs.take n) (cs.drop n) lexemes rest (.ok tokens)) :
    Explains before cs (cs.take n :: lexemes) rest (.ok tokens) := by
  obtain ⟨hend, hspread, htexts⟩ := h
  refine ⟨hend, ?_, ?_⟩
  · have hspread := hspread.blanks (List.all_eq_true.1 hblank)
    rwa [List.take_append_drop] at hspread
  · rw [htexts, List.filter_cons_of_neg (by simp [hblank])]

/-- Every other lexeme is a token. -/
theorem token (hblank : ¬ (cs.take n).all isBlank = true)
    (h : Explains (before ++ cs.take n) (cs.drop n) lexemes rest (.ok tokens)) :
    Explains before cs (cs.take n :: lexemes) rest
      (.ok (⟨kindOf (cs.take n), String.ofList (cs.take n), .counted before⟩ :: tokens)) := by
  obtain ⟨hend, hspread, htexts⟩ := h
  refine ⟨hend, ?_, ?_⟩
  · let t : Token := ⟨kindOf (cs.take n), String.ofList (cs.take n), .counted before⟩
    have htext : t.text.toList = cs.take n := String.toList_ofList
    have hspread : Spread before (t :: tokens) ([] ++ t.text.toList ++ cs.drop n) :=
      .cons (by simp) (kindOf_ne_endOfFile _) (by rw [List.append_nil])
        (by rwa [List.append_nil, htext])
    rwa [List.nil_append, htext, List.take_append_drop] at hspread
  · rw [List.dropLast_cons_of_ne_nil hspread.ne_nil, List.map_cons, htexts,
      List.filter_cons_of_pos (by simpa using hblank), String.toList_ofList]

end Explains

/-- What cutting a text comes to, from any place on. -/
theorem scan_explained (before cs : List Char) :
    ∃ lexemes rest, cs = lexemes.flatten ++ rest ∧ Cut before lexemes rest ∧
      Explains before cs lexemes rest (scan (.counted before) cs) := by
  generalize hp : Position.counted before = p
  fun_induction scan p cs generalizing before with
  | case1 p cs n hn e hrest ih =>
    subst hp
    obtain ⟨lexemes, rest, hflatten, hcut, hexplains⟩ :=
      ih (before ++ cs.take n) (Position.counted_append _ _)
    obtain ⟨hcs, hcut⟩ := Cut.of_lexemeLength? hn hflatten hcut
    exact ⟨_, rest, hcs, hcut, (hrest ▸ hexplains).fault⟩
  | case2 p cs n hn tokens hrest hblank ih =>
    subst hp
    obtain ⟨lexemes, rest, hflatten, hcut, hexplains⟩ :=
      ih (before ++ cs.take n) (Position.counted_append _ _)
    obtain ⟨hcs, hcut⟩ := Cut.of_lexemeLength? hn hflatten hcut
    exact ⟨_, rest, hcs, hcut, .blank hblank (hrest ▸ hexplains)⟩
  | case3 p cs n hn tokens hrest hblank ih =>
    subst hp
    obtain ⟨lexemes, rest, hflatten, hcut, hexplains⟩ :=
      ih (before ++ cs.take n) (Position.counted_append _ _)
    obtain ⟨hcs, hcut⟩ := Cut.of_lexemeLength? hn hflatten hcut
    exact ⟨_, rest, hcs, hcut, .token hblank (hrest ▸ hexplains)⟩
  | case4 p cs hn hempty =>
    subst hp
    obtain rfl := List.isEmpty_iff.1 hempty
    exact ⟨[], [], rfl, .stop, rfl, .last (by simp) rfl rfl (by rw [List.append_nil]), rfl⟩
  | case5 p cs hn hempty =>
    subst hp
    have hne : cs ≠ [] := fun h => hempty (List.isEmpty_iff.2 h)
    exact ⟨[], cs, rfl, .stop, hne, hn, by rw [List.flatten_nil, List.append_nil]⟩

/-! ## 3. The offending text -/

/-- The offending text goes on to the next place where a lexeme starts, or to the end. -/
theorem offending_spec (cs : List Char) :
    ∃ after, cs = offending cs ++ after ∧
      (∀ passed left, offending cs = passed ++ left → left ≠ [] →
        lexemeLength? (left ++ after) = none) ∧
      (after = [] ∨ (lexemeLength? after).isSome = true) := by
  induction cs with
  | nil => exact ⟨[], rfl, by simp, .inl rfl⟩
  | cons c cs ih =>
    rw [offending_cons]
    split
    case isTrue h => exact ⟨c :: cs, rfl, by simp, .inr h⟩
    case isFalse h =>
      obtain ⟨after, hcs, hnone, hafter⟩ := ih
      refine ⟨after, by rw [List.cons_append, ← hcs], fun passed left heq hleft => ?_, hafter⟩
      -- Only the first character is new, and no lexeme starts at it.
      cases passed with
      | nil =>
        rw [List.nil_append] at heq
        rw [← heq, List.cons_append, ← hcs]
        exact Option.not_isSome_iff_eq_none.1 h
      | cons d passed => exact hnone passed left (List.cons.inj heq).2 hleft

theorem offending_ne_nil (hne : cs ≠ []) (h : lexemeLength? cs = none) : offending cs ≠ [] := by
  obtain ⟨c, cs, rfl⟩ := List.exists_cons_of_ne_nil hne
  simp [offending_cons, h]

/-! ## 4. The tokens of a text -/

/-- Every text is cut from its front into lexemes that follow each other without a gap. If they make
up the whole text, its tokens and the blanks between them are the text again, with each token at the
position that is counted. Otherwise the fault stands behind the lexemes, and the text that it quotes
goes from there to the next place where a lexeme starts. -/
theorem tokenize_lossless (text : String) :
    ∃ lexemes rest, text.toList = lexemes.flatten ++ rest ∧ Cut [] lexemes rest ∧
      match tokenize text with
      | .ok ts =>
        rest = [] ∧ Spread [] ts text.toList ∧
          ts.dropLast.map (·.text.toList) = lexemes.filter fun lexeme => !lexeme.all isBlank
      | .error e =>
        e.position = .counted lexemes.flatten ∧
          ∃ quoted after, rest = quoted ++ after ∧ quoted ≠ [] ∧
            (∀ passed left, quoted = passed ++ left → left ≠ [] →
              ¬ MatchesAt (lexemes.flatten ++ passed) (left ++ after)) ∧
            (after = [] ∨ MatchesAt (lexemes.flatten ++ quoted) after) ∧
            e.cause.message = "Syntax error: " ++ quote (String.ofList quoted) := by
  obtain ⟨lexemes, rest, hcs, hcut, hexplains⟩ := scan_explained [] text.toList
  refine ⟨lexemes, rest, hcs, hcut, ?_⟩
  change Explains [] text.toList lexemes rest (tokenize text) at hexplains
  cases hresult : tokenize text with
  | ok ts =>
    rw [hresult] at hexplains
    exact hexplains
  | error e =>
    rw [hresult] at hexplains
    obtain ⟨hne, hnone, rfl⟩ := hexplains
    obtain ⟨after, hrest, hpassed, hafter⟩ := offending_spec rest
    simp only [matchesAt_iff]
    refine ⟨rfl, offending rest, after, hrest, offending_ne_nil hne hnone, ?_, hafter, rfl⟩
    intro passed left heq hleft
    rw [hpassed passed left heq hleft]
    exact Bool.false_ne_true

end Token

end SchemaGen
