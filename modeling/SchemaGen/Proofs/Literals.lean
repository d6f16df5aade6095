import SchemaGen.Text.Integer
import SchemaGen.Token.Lexeme
import SchemaGen.Text.Quoted

/-!
# Literals as they are written

A string that is written with `quote` is one lexeme, whatever stands behind it, and reading it gives
the string back. Reading the decimal notation of an integer gives the integer back.

Results:
1. `unquote_quote`, `stringLength?_quote`: strings.
2. `int32?_toString`: integers.
-/

namespace SchemaGen.Text

/-! ## 1. Strings -/

/-- The ways to write one character inside a literal. -/
inductive Escaped (c : Char) : List Char → Prop
  | short {d : Char} (hread : shortEscape? d = some c) (hunit : d ≠ 'u') : Escaped c ['\\', d]
  | unit (hcontrol : c.toNat < 0x20) :
      Escaped c ['\\', 'u', '0', '0', hexDigit (c.toNat / 16), hexDigit (c.toNat % 16)]
  | bare (hquote : c ≠ '"') (hbackslash : c ≠ '\\') (hprintable : ¬ c.toNat < 0x20) : Escaped c [c]

theorem escaped_escapeChar (c : Char) : Escaped c (escapeChar c) := by
  unfold escapeChar
  split
  · next h => subst h; exact .short (by decide) (by decide)
  split
  · next h => subst h; exact .short (by decide) (by decide)
  split
  · next h => subst h; exact .short (by decide) (by decide)
  split
  · next h => subst h; exact .short (by decide) (by decide)
  split
  · next h => subst h; exact .short (by decide) (by decide)
  split
  · next h => subst h; exact .short (by decide) (by decide)
  split
  · next h => subst h; exact .short (by decide) (by decide)
  split
  · next hcontrol => exact .unit hcontrol
  · next hquote hbackslash _ _ _ _ _ hprintable => exact .bare hquote hbackslash hprintable

theorem hexValue?_hexDigit {n : Nat} (h : n < 16) : hexValue? (hexDigit n) = some n := by
  have hall : ∀ n : Fin 16, hexValue? (hexDigit n) = some n.val := by decide
  exact hall ⟨n, h⟩

theorem readEscape_unit {c : Char} (hcontrol : c.toNat < 0x20) (tail : List Char) :
    readEscape ('u' :: '0' :: '0' :: hexDigit (c.toNat / 16) :: hexDigit (c.toNat % 16) :: tail) =
      .ok (c, tail) := by
  have hzero : hexValue? '0' = some 0 := by decide
  have hunit : readUnit ('0' :: '0' :: hexDigit (c.toNat / 16) :: hexDigit (c.toNat % 16) :: tail) =
      .ok (c.toNat, tail) := by
    simp only [readUnit, hzero, hexValue?_hexDigit (show c.toNat / 16 < 16 by omega),
      hexValue?_hexDigit (show c.toNat % 16 < 16 by omega)]
    congr 2
    omega
  rw [readEscape, if_pos rfl, hunit]
  simp only [if_neg (show ¬ (0xDC00 ≤ c.toNat ∧ c.toNat ≤ 0xDFFF) by omega),
    if_neg (show ¬ (0xD800 ≤ c.toNat ∧ c.toNat ≤ 0xDBFF) by omega), Char.ofNat_toNat]

theorem readBody_backslash {c : Char} {escape tail body rest : List Char}
    (hescape : readEscape escape = .ok (c, tail)) (htail : readBody tail = .ok (body, rest)) :
    readBody ('\\' :: escape) = .ok (c :: body, rest) := by
  rw [readBody, if_neg (by decide), if_pos rfl]
  split
  · next e herror =>
    rw [hescape] at herror
    cases herror
  · next d next hok =>
    rw [hescape] at hok
    cases hok
    rw [htail]

theorem readBody_escaped {c : Char} {written tail body rest : List Char} (h : Escaped c written)
    (htail : readBody tail = .ok (body, rest)) :
    readBody (written ++ tail) = .ok (c :: body, rest) := by
  cases h with
  | @short d hread hunit =>
    have hescape : readEscape (d :: tail) = .ok (c, tail) := by
      rw [readEscape, if_neg hunit, hread]
    exact readBody_backslash hescape htail
  | unit hcontrol => exact readBody_backslash (readEscape_unit hcontrol tail) htail
  | bare hquote hbackslash hprintable =>
    show readBody (c :: tail) = _
    rw [readBody, if_neg hquote, if_neg hbackslash, if_neg hprintable, htail]

theorem readBody_escapes (cs rest : List Char) :
    readBody (cs.flatMap escapeChar ++ '"' :: rest) = .ok (cs, rest) := by
  induction cs with
  | nil =>
    show readBody ('"' :: rest) = _
    rw [readBody, if_pos rfl]
  | cons c cs ih =>
    rw [List.flatMap_cons, List.append_assoc]
    exact readBody_escaped (escaped_escapeChar c) ih

theorem unquote_quote (s : String) : unquote (quote s) = s := by
  have hread : readLiteral? (quoteChars s.toList) = some s.toList := by
    have hbody := readBody_escapes s.toList []
    rw [readLiteral?, quoteChars, List.cons_append, List.dropWhile_cons_of_neg (by decide)]
    simp only [hbody]
    rfl
  rw [unquote, quote, String.toList_ofList, hread]
  exact String.ofList_toList

end SchemaGen.Text

namespace SchemaGen.Token

open Text

theorem stringEnd?_bare {c : Char} (hquote : c ≠ '"') (hnewline : c ≠ '\n') (hbackslash : c ≠ '\\')
    (tail : List Char) : stringEnd? (c :: tail) = (stringEnd? tail).map (· + 1) := by
  cases tail with
  | nil => simp [stringEnd?, hquote]
  | cons d tail => rw [stringEnd?, if_neg hquote, if_neg hnewline, if_neg hbackslash]

theorem stringEnd?_hexDigit {n : Nat} (h : n < 16) (tail : List Char) :
    stringEnd? (hexDigit n :: tail) = (stringEnd? tail).map (· + 1) := by
  have hall : ∀ n : Fin 16, hexDigit n ≠ '"' ∧ hexDigit n ≠ '\n' ∧ hexDigit n ≠ '\\' := by decide
  obtain ⟨hquote, hnewline, hbackslash⟩ := hall ⟨n, h⟩
  exact stringEnd?_bare hquote hnewline hbackslash tail

theorem stringEnd?_escaped {c : Char} {written : List Char} (h : Escaped c written)
    (tail : List Char) :
    stringEnd? (written ++ tail) = (stringEnd? tail).map (· + written.length) := by
  cases h with
  | short =>
    show stringEnd? ('\\' :: _ :: tail) = _
    rw [stringEnd?, if_neg (by decide), if_neg (by decide), if_pos rfl]
    rfl
  | unit hcontrol =>
    show stringEnd? ('\\' :: 'u' :: '0' :: '0' :: hexDigit (c.toNat / 16) ::
      hexDigit (c.toNat % 16) :: tail) = _
    rw [stringEnd?, if_neg (by decide), if_neg (by decide), if_pos rfl,
      stringEnd?_bare (by decide) (by decide) (by decide),
      stringEnd?_bare (by decide) (by decide) (by decide),
      stringEnd?_hexDigit (by omega), stringEnd?_hexDigit (by omega)]
    simp [Function.comp_def]
  | bare hquote hbackslash hprintable =>
    have hnewline : c ≠ '\n' := by
      rintro rfl
      exact hprintable (by decide)
    exact stringEnd?_bare hquote hnewline hbackslash tail

theorem stringEnd?_escapes (cs rest : List Char) :
    stringEnd? (cs.flatMap escapeChar ++ '"' :: rest) =
      some ((cs.flatMap escapeChar).length + 1) := by
  induction cs with
  | nil => cases rest <;> simp [stringEnd?]
  | cons c cs ih =>
    rw [List.flatMap_cons, List.append_assoc, stringEnd?_escaped (escaped_escapeChar c), ih]
    simp only [Option.map_some, List.length_append]
    congr 1
    omega

theorem stringLength?_quote (s : String) (rest : List Char) :
    stringLength? ((quote s).toList ++ rest) = some (quote s).toList.length := by
  have hquote : (quote s).toList = '"' :: s.toList.flatMap escapeChar ++ ['"'] :=
    String.toList_ofList
  have hend := stringEnd?_escapes s.toList rest
  rw [hquote, List.append_assoc, List.cons_append, stringLength?, if_pos rfl, List.singleton_append,
    hend]
  simp

end SchemaGen.Token

namespace SchemaGen.Text

/-! ## 2. Integers -/

/-- The digits of a natural number. -/
def decimal (n : Nat) : List Char :=
  Nat.toDigits 10 n

theorem isDigit_of_mem_decimal {n : Nat} {c : Char} (h : c ∈ decimal n) : c.isDigit = true :=
  Nat.isDigit_of_mem_toDigits (by decide) (by decide) h

theorem digitsValue?_eq_some {cs : List Char} (h : ∀ c ∈ cs, c.isDigit = true) (value : Nat) :
    digitsValue? value cs = some (Nat.ofDigitChars 10 cs value) := by
  induction cs generalizing value with
  | nil => rfl
  | cons c cs ih =>
    rw [List.forall_mem_cons] at h
    rw [digitsValue?, if_pos h.1, ih h.2]
    rfl

theorem exists_cons_decimal (n : Nat) :
    ∃ c cs, decimal n = c :: cs ∧ c.isDigit = true ∧ ∀ d ∈ cs, d.isDigit = true := by
  obtain ⟨c, cs, hcs⟩ : ∃ c cs, decimal n = c :: cs :=
    List.exists_cons_of_ne_nil Nat.toDigits_ne_nil
  have hdigits (d : Char) (hd : d ∈ c :: cs) : d.isDigit = true :=
    isDigit_of_mem_decimal (hcs ▸ hd)
  exact ⟨c, cs, hcs, hdigits c List.mem_cons_self,
    fun d hd => hdigits d (List.mem_cons_of_mem c hd)⟩

theorem natural?_decimal (n : Nat) : natural? (decimal n) = some n := by
  have hvalue : digitsValue? 0 (decimal n) = some n := by
    rw [digitsValue?_eq_some fun c => isDigit_of_mem_decimal, decimal,
      Nat.ofDigitChars_toDigits (by decide) (by decide)]
  obtain ⟨c, cs, hcs, -⟩ := exists_cons_decimal n
  rw [hcs] at hvalue ⊢
  exact hvalue

theorem toList_toString_nat (n : Nat) : (toString (n : Int)).toList = decimal n :=
  String.toList_ofList

theorem toList_toString_neg (n : Nat) :
    (toString (Int.negSucc n)).toList = '-' :: decimal (n + 1) := by
  show ("-" ++ Nat.repr (n + 1)).toList = _
  rw [String.toList_append, Nat.repr, String.toList_ofList (l := Nat.toDigits 10 (n + 1))]
  rfl

theorem signed?_toString (n : Int) : signed? (toString n).toList = some n := by
  cases n with
  | ofNat n =>
    obtain ⟨c, cs, hcs, hdigit, -⟩ := exists_cons_decimal n
    have hminus : c ≠ '-' := by
      rintro rfl
      exact absurd hdigit (by decide)
    have hplus : c ≠ '+' := by
      rintro rfl
      exact absurd hdigit (by decide)
    rw [Int.ofNat_eq_natCast, toList_toString_nat, hcs, signed?, if_neg hminus, if_neg hplus, ← hcs,
      natural?_decimal]
    rfl
  | negSucc n =>
    rw [toList_toString_neg, signed?, if_pos rfl, natural?_decimal]
    rfl

theorem int32?_toString {n : Int} (h : -2147483648 ≤ n ∧ n ≤ 2147483647) :
    int32? (toString n) = some n := by
  rw [int32?, signed?_toString, Option.filter_some, if_pos (by simpa using h)]

end SchemaGen.Text
