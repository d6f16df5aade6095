import SchemaGen.Proofs.Literals
import SchemaGen.Proofs.Tokens

/-!
# Words

The first character of a lexeme tells its class, so a token of some kind is what its kind says: a
name is a name from its first to its last character, and a line comment holds no newline. The other
way round, a word that stands before a blank or a symbol is cut off where it ends.

Results:
1. `isName_of_kind`, `newline_of_kind`: what the tokens of a text are.
2. `isWord_name`, `isWord_symbol`, `isWord_quote`, `isWord_decimal`: the words that end before a
   blank or a symbol.
-/

namespace SchemaGen.Token

open Text (isBlank isDigit isWord decimal quote)

/-- The text `cs` is one name. -/
def IsName (cs : List Char) : Prop :=
  nameLength? cs = some cs.length

/-- The characters that end a word. -/
def separators : List Char :=
  [' ', '\n', ';', ',', ']', '<', '>']

/-- Something stands at the front of `rest` that ends a word. -/
def Separated (rest : List Char) : Prop :=
  ∃ c cs, rest = c :: cs ∧ c ∈ separators

/-- The text `w` is one line of one lexeme before everything that ends a word. -/
structure IsWord (w : List Char) : Prop where
  visible : ∃ c cs, w = c :: cs ∧ isBlank c = false
  newline : '\n' ∉ w
  length : ∀ {rest}, Separated rest → lexemeLength? (w ++ rest) = some w.length

/-! ## Classes by their first character -/

variable {c : Char} {cs rest w : List Char}

theorem of_ascii {P : Char → Prop} (h : ∀ n : Fin 128, P (Char.ofNat n)) (hc : c.toNat < 128) :
    P c := by
  have hchar := h ⟨c.toNat, hc⟩
  rwa [Char.ofNat_toNat] at hchar

/-- Only the characters of the list are looked at, while deciding the statement itself could go
through all characters. -/
theorem forall_mem_of_all {P : Char → Prop} [DecidablePred P]
    (h : (cs.all fun c => decide (P c)) = true) : ∀ c ∈ cs, P c :=
  fun c hc => of_decide_eq_true (List.all_eq_true.1 h c hc)

theorem toNat_lt_of_isNameStart (h : isNameStart c = true) : c.toNat < 128 := by
  rcases Bool.or_eq_true_iff.1 h with halpha | hunderscore
  · have hle : c.val ≤ 'Z'.val ∨ c.val ≤ 'z'.val :=
      (Bool.or_eq_true_iff.1 halpha).imp (fun h => (of_decide_eq_true h).2)
        fun h => of_decide_eq_true (Bool.and_eq_true_iff.1 h).2
    rcases hle with hle | hle
    all_goals exact Nat.lt_of_le_of_lt (UInt32.le_iff_toNat_le.1 hle) (by decide)
  · rw [of_decide_eq_true hunderscore]
    decide

/-- A character that can start a name starts no other lexeme. -/
theorem only_name (h : c = '.' ∨ isNameStart c = true) :
    c ≠ '/' ∧ c ≠ '"' ∧ c ≠ '-' ∧ c ≠ '\n' ∧ isDigit c = false ∧ isSymbol c = false ∧
      isBlank c = false := by
  have hascii : c.toNat < 128 := by
    rcases h with rfl | h
    · decide
    · exact toNat_lt_of_isNameStart h
  revert h
  exact of_ascii (P := fun c => (c = '.' ∨ isNameStart c = true) → c ≠ '/' ∧ c ≠ '"' ∧ c ≠ '-' ∧
    c ≠ '\n' ∧ isDigit c = false ∧ isSymbol c = false ∧ isBlank c = false) (by decide +kernel)
    hascii

theorem lexemeLength?_of_ne_slash (h : c ≠ '/') :
    lexemeLength? (c :: cs) = (stringLength? (c :: cs) <|> integerLength? (c :: cs) <|>
      nameLength? (c :: cs) <|> symbolLength? (c :: cs) <|> blanksLength? (c :: cs)) := by
  cases cs with
  | nil => rfl
  | cons d cs => simp [lexemeLength?, blockCommentLength?, lineCommentLength?, h]

theorem stringLength?_of_ne (h : c ≠ '"') : stringLength? (c :: cs) = none :=
  if_neg h

theorem digitsLength?_of_not_digit (h : isDigit c = false) : digitsLength? (c :: cs) = none := by
  simp [digitsLength?, h]

theorem integerLength?_of_not_digit (hminus : c ≠ '-') (hdigit : isDigit c = false) :
    integerLength? (c :: cs) = none := by
  rw [integerLength?, if_neg hminus, digitsLength?_of_not_digit hdigit]

theorem nameLength?_of_not_start (hdot : c ≠ '.') (hstart : isNameStart c = false) :
    nameLength? (c :: cs) = none := by
  simp [nameLength?, hdot, hstart]

/-! ## Names -/

theorem lexemeLength?_eq_nameLength? (h : c = '.' ∨ isNameStart c = true) :
    lexemeLength? (c :: cs) = nameLength? (c :: cs) := by
  obtain ⟨hslash, hquote, hminus, -, hdigit, hsymbol, hblank⟩ := only_name h
  rw [lexemeLength?_of_ne_slash hslash, stringLength?_of_ne hquote,
    integerLength?_of_not_digit hminus hdigit]
  have hothers : symbolLength? (c :: cs) = none ∧ blanksLength? (c :: cs) = none := by
    simp [symbolLength?, hsymbol, blanksLength?, hblank]
  simp [hothers]

theorem isNameChar_of_isNameStart (h : isNameStart c = true) : isNameChar c = true := by
  rcases Bool.or_eq_true_iff.1 h with halpha | hunderscore
  · simp [isNameChar, Char.isAlphanum, halpha]
  · simp [isNameChar, of_decide_eq_true hunderscore]

theorem nameTail_of_isNameChar (h : isNameChar c = true) (cs : List Char) :
    nameTail (c :: cs) = 1 + nameTail cs := by
  rw [nameTail, if_pos h]

theorem nameTail_dot (h : cs.head?.any isNameStart = true) :
    nameTail ('.' :: cs) = 1 + nameTail cs := by
  rw [nameTail, if_neg (by decide), if_pos ⟨rfl, h⟩]

/-- The three ways in which a name can go on or end. -/
theorem nameTail_cases (c : Char) (cs : List Char) :
    isNameChar c = true ∨ (c = '.' ∧ cs.head?.any isNameStart = true) ∨ nameTail (c :: cs) = 0 := by
  by_cases hchar : isNameChar c = true
  · exact .inl hchar
  by_cases hdot : c = '.' ∧ cs.head?.any isNameStart = true
  · exact .inr (.inl hdot)
  · exact .inr (.inr (by rw [nameTail, if_neg hchar, if_neg hdot]))

theorem head?_take_nameTail (h : cs.head?.any isNameStart = true) :
    (cs.take (nameTail cs)).head? = cs.head? := by
  cases cs with
  | nil => rfl
  | cons c cs =>
    have hchar : isNameChar c = true := isNameChar_of_isNameStart h
    rw [nameTail_of_isNameChar hchar, Nat.add_comm, List.take_succ_cons]
    rfl

theorem nameTail_take (cs : List Char) : nameTail (cs.take (nameTail cs)) = nameTail cs := by
  induction cs with
  | nil => rfl
  | cons c cs ih =>
    rcases nameTail_cases c cs with hchar | ⟨rfl, hnext⟩ | hend
    · rw [nameTail_of_isNameChar hchar, Nat.add_comm, List.take_succ_cons,
        nameTail_of_isNameChar hchar, ih, Nat.add_comm]
    · have hnext' : (cs.take (nameTail cs)).head?.any isNameStart = true := by
        rw [head?_take_nameTail hnext, hnext]
      rw [nameTail_dot hnext, Nat.add_comm, List.take_succ_cons, nameTail_dot hnext', ih,
        Nat.add_comm]
    · rw [hend]
      rfl

theorem nameTail_le_length (cs : List Char) : nameTail cs ≤ cs.length := by
  induction cs with
  | nil => exact Nat.le_refl 0
  | cons c cs ih =>
    rw [List.length_cons]
    rcases nameTail_cases c cs with hchar | ⟨rfl, hnext⟩ | hend
    · rw [nameTail_of_isNameChar hchar]
      omega
    · rw [nameTail_dot hnext]
      omega
    · omega

theorem nameTail_append (h : nameTail cs = cs.length) (hrest : nameTail rest = 0) :
    nameTail (cs ++ rest) = cs.length := by
  induction cs with
  | nil => exact hrest
  | cons c cs ih =>
    rcases nameTail_cases c cs with hchar | ⟨rfl, hnext⟩ | hend
    · rw [nameTail_of_isNameChar hchar, List.length_cons, Nat.add_comm] at h
      rw [List.cons_append, nameTail_of_isNameChar hchar, ih (Nat.succ.inj h), List.length_cons,
        Nat.add_comm]
    · have hnext' : (cs ++ rest).head?.any isNameStart = true := by
        cases cs with
        | nil => cases hnext
        | cons d cs => exact hnext
      rw [nameTail_dot hnext, List.length_cons, Nat.add_comm] at h
      rw [List.cons_append, nameTail_dot hnext', ih (Nat.succ.inj h), List.length_cons,
        Nat.add_comm]
    · rw [hend] at h
      cases h

theorem isName_cons_iff :
    IsName (c :: cs) ↔
      (isNameStart c = true ∨ c = '.' ∧ cs.head?.any isNameStart = true) ∧
        nameTail cs = cs.length := by
  rw [IsName, nameLength?, List.length_cons]
  split
  · next hstart =>
    simp only [hstart, true_and, Option.some.injEq]
    omega
  · next hstart => simp [hstart]

/-- What `nameLength?` measures is a name. -/
theorem isName_take {n : Nat} (h : nameLength? cs = some n) : IsName (cs.take n) := by
  cases cs with
  | nil => cases h
  | cons c cs =>
    rw [nameLength?] at h
    split at h
    · next hstart =>
      cases h
      rw [Nat.add_comm, List.take_succ_cons, isName_cons_iff]
      refine ⟨?_, ?_⟩
      · rcases hstart with hstart | ⟨rfl, hnext⟩
        · exact .inl hstart
        · exact .inr ⟨rfl, by rw [head?_take_nameTail hnext, hnext]⟩
      · rw [nameTail_take, List.length_take, Nat.min_eq_left (nameTail_le_length cs)]
    · cases h

/-- A name that starts with a dot is a name behind it. -/
theorem isName_of_dot (h : IsName ('.' :: cs)) : IsName cs := by
  obtain ⟨hstart | ⟨-, hnext⟩, htail⟩ := isName_cons_iff.1 h
  · exact absurd hstart (by decide)
  cases cs with
  | nil => cases hnext
  | cons c cs =>
    rw [nameTail_of_isNameChar (isNameChar_of_isNameStart hnext), List.length_cons] at htail
    exact isName_cons_iff.2 ⟨.inl hnext, by omega⟩

theorem ne_dot_of_isNameStart (h : isNameStart c = true) : c ≠ '.' := by
  rintro rfl
  exact absurd h (by decide)

/-- A name has at most one dot at its front. -/
theorem isName_dropWhile_dot (h : IsName cs) :
    IsName (cs.dropWhile (· = '.')) ∧ (cs.dropWhile (· = '.')).head? ≠ some '.' := by
  cases cs with
  | nil => cases h
  | cons c cs =>
    obtain ⟨hstart | ⟨rfl, hnext⟩, -⟩ := isName_cons_iff.1 h
    · have hdot := ne_dot_of_isNameStart hstart
      rw [List.dropWhile_cons_of_neg (by simpa using hdot)]
      exact ⟨h, by simpa using hdot⟩
    · cases cs with
      | nil => cases hnext
      | cons d cs =>
        have hdot : d ≠ '.' := ne_dot_of_isNameStart hnext
        rw [List.dropWhile_cons_of_pos (by simp), List.dropWhile_cons_of_neg (by simpa using hdot)]
        exact ⟨isName_of_dot h, by simpa using hdot⟩

theorem exists_start_of_isName (h : IsName cs) :
    ∃ c cs', cs = c :: cs' ∧ (c = '.' ∨ isNameStart c = true) := by
  cases cs with
  | nil => cases h
  | cons c cs =>
    obtain ⟨hstart | ⟨hdot, -⟩, -⟩ := isName_cons_iff.1 h
    · exact ⟨c, cs, rfl, .inr hstart⟩
    · exact ⟨c, cs, rfl, .inl hdot⟩

theorem start_of_kindOf (h : kindOf (c :: cs) = .identifier) : c = '.' ∨ isNameStart c = true := by
  grind [kindOf]

theorem isName_of_kind {t : Token} (ht : t.IsLexeme) (hkind : t.kind = .identifier) :
    IsName t.text.toList := by
  obtain ⟨cs, n, hlength, htext⟩ := ht.front
  have hkindOf : kindOf (cs.take n) = .identifier := by rw [← htext, ← ht.kind, hkind]
  cases cs with
  | nil => cases hlength
  | cons c cs =>
    obtain ⟨n, rfl⟩ := Nat.exists_eq_add_one.2 (lexemeLength?_pos hlength)
    have hstart := start_of_kindOf hkindOf
    rw [lexemeLength?_eq_nameLength? hstart] at hlength
    rw [htext]
    exact isName_take hlength

theorem mem_of_nameTail (h : nameTail cs = cs.length) (hc : c ∈ cs) :
    isNameChar c = true ∨ c = '.' := by
  induction cs with
  | nil => cases hc
  | cons d cs ih =>
    have hd : (isNameChar d = true ∨ d = '.') ∧ nameTail cs = cs.length := by
      rw [List.length_cons] at h
      rcases nameTail_cases d cs with hchar | ⟨rfl, hnext⟩ | hend
      · rw [nameTail_of_isNameChar hchar] at h
        exact ⟨.inl hchar, by omega⟩
      · rw [nameTail_dot hnext] at h
        exact ⟨.inr rfl, by omega⟩
      · omega
    rcases List.mem_cons.1 hc with rfl | hc
    · exact hd.1
    · exact ih hd.2 hc

theorem nameTail_separated (h : Separated rest) : nameTail rest = 0 := by
  obtain ⟨c, cs, rfl, hc⟩ := h
  have hall : ∀ c ∈ separators, isNameChar c = false ∧ c ≠ '.' :=
    forall_mem_of_all (by decide)
  obtain ⟨hchar, hdot⟩ := hall c hc
  simp [nameTail, hchar, hdot]

/-- A name ends where it cannot go on. -/
theorem nameLength?_append (h : IsName w) (hrest : nameTail rest = 0) :
    nameLength? (w ++ rest) = some w.length := by
  obtain ⟨c, cs, rfl, -⟩ := exists_start_of_isName h
  obtain ⟨hstart, htail⟩ := isName_cons_iff.1 h
  have hstart' : isNameStart c = true ∨ c = '.' ∧ (cs ++ rest).head?.any isNameStart = true := by
    rcases hstart with hstart | ⟨hdot, hnext⟩
    · exact .inl hstart
    · cases cs with
      | nil => cases hnext
      | cons d cs => exact .inr ⟨hdot, hnext⟩
  rw [List.cons_append, nameLength?, if_pos hstart', nameTail_append htail hrest, List.length_cons,
    Nat.add_comm]

theorem isWord_name (h : IsName w) : IsWord w := by
  obtain ⟨c, cs, rfl, hfirst⟩ := exists_start_of_isName h
  obtain ⟨-, -, -, hnewline, -, -, hblank⟩ := only_name hfirst
  obtain ⟨-, htail⟩ := isName_cons_iff.1 h
  refine ⟨⟨c, cs, rfl, hblank⟩, ?_, fun {rest} hrest => ?_⟩
  · intro hmem
    rcases List.mem_cons.1 hmem with heq | hmem
    · exact hnewline heq.symm
    · rcases mem_of_nameTail htail hmem with hchar | hdot
      · exact absurd hchar (by decide)
      · exact absurd hdot (by decide)
  · rw [List.cons_append, lexemeLength?_eq_nameLength? hfirst]
    exact nameLength?_append h (nameTail_separated hrest)

/-! ## Symbols -/

/-- A symbol is a lexeme whatever stands behind it. -/
theorem lexemeLength?_symbol (h : isSymbol c = true) (rest : List Char) :
    lexemeLength? (c :: rest) = some 1 := by
  have hall : ∀ c ∈ ['=', ';', '\x7b', '\x7d', '[', ']', '<', '>', ','],
      c ≠ '/' ∧ c ≠ '"' ∧ c ≠ '-' ∧ isDigit c = false ∧ c ≠ '.' ∧ isNameStart c = false :=
    forall_mem_of_all (by decide)
  obtain ⟨hslash, hquote, hminus, hdigit, hdot, hstart⟩ := hall c (of_decide_eq_true h)
  rw [lexemeLength?_of_ne_slash hslash, stringLength?_of_ne hquote,
    integerLength?_of_not_digit hminus hdigit, nameLength?_of_not_start hdot hstart, symbolLength?,
    if_pos h]
  rfl

theorem isWord_symbol (h : isSymbol c = true) : IsWord [c] := by
  have hall : ∀ c ∈ ['=', ';', '\x7b', '\x7d', '[', ']', '<', '>', ','],
      isBlank c = false ∧ c ≠ '\n' :=
    forall_mem_of_all (by decide)
  obtain ⟨hblank, hnewline⟩ := hall c (of_decide_eq_true h)
  exact ⟨⟨c, [], rfl, hblank⟩, by simpa using hnewline.symm, fun _ => lexemeLength?_symbol h _⟩

/-! ## Literals -/

theorem newline_of_escaped {written : List Char} (h : Text.Escaped c written) : '\n' ∉ written := by
  cases h with
  | short hread =>
    have hnone : Text.shortEscape? '\n' = none := by decide
    intro hmem
    obtain rfl : '\n' = _ := by simpa using hmem
    exact absurd (hnone.symm.trans hread) nofun
  | unit hcontrol =>
    have hall : ∀ n : Fin 16, '\n' ≠ Text.hexDigit n := by decide
    have hhigh := hall ⟨c.toNat / 16, by omega⟩
    have hlow := hall ⟨c.toNat % 16, by omega⟩
    simp [hhigh, hlow]
  | bare _ _ hprintable =>
    intro hmem
    obtain rfl := List.mem_singleton.1 hmem
    exact hprintable (by decide)

theorem isWord_quote (s : String) : IsWord (quote s).toList := by
  have hquote : (quote s).toList = '"' :: (s.toList.flatMap Text.escapeChar ++ ['"']) :=
    String.toList_ofList
  refine ⟨⟨_, _, hquote, by decide⟩, ?_, fun {rest} _ => ?_⟩
  · rw [hquote]
    have hbody : '\n' ∉ s.toList.flatMap Text.escapeChar := by
      intro hmem
      obtain ⟨c, -, hc⟩ := List.mem_flatMap.1 hmem
      exact newline_of_escaped (Text.escaped_escapeChar c) hc
    simp [hbody]
  · have hlength := stringLength?_quote s rest
    rw [hquote, List.cons_append] at hlength ⊢
    rw [lexemeLength?_of_ne_slash (by decide), hlength]
    rfl

theorem toNat_lt_of_isDigit (h : c.isDigit = true) : c.toNat < 128 := by
  simp only [Char.isDigit, Bool.and_eq_true, decide_eq_true_eq, UInt32.le_iff_toNat_le] at h
  have hnine : '9'.val.toNat = 57 := rfl
  show c.val.toNat < 128
  omega

/-- A digit starts nothing but an integer. -/
theorem only_integer (h : c.isDigit = true) :
    c ≠ '/' ∧ c ≠ '"' ∧ c ≠ '-' ∧ c ≠ '\n' ∧ isDigit c = true ∧ isBlank c = false := by
  have hascii := toNat_lt_of_isDigit h
  revert h
  exact of_ascii (P := fun c => c.isDigit = true → c ≠ '/' ∧ c ≠ '"' ∧ c ≠ '-' ∧ c ≠ '\n' ∧
    isDigit c = true ∧ isBlank c = false) (by decide +kernel) hascii

theorem digitsLength?_append (hne : w ≠ []) (hw : ∀ c ∈ w, c.isDigit = true)
    (hrest : Separated rest) : digitsLength? (w ++ rest) = some w.length := by
  obtain ⟨c, cs, rfl, hc⟩ := hrest
  have hall : ∀ c ∈ separators, isDigit c = false ∧ isWord c = false :=
    forall_mem_of_all (by decide)
  obtain ⟨hdigit, hword⟩ := hall c hc
  have htake : (w ++ c :: cs).takeWhile isDigit = w := by
    obtain hdigits : ∀ c ∈ w, isDigit c = true := fun c hc => (only_integer (hw c hc)).2.2.2.2.1
    rw [List.takeWhile_append_of_pos hdigits, List.takeWhile_cons_of_neg (by simp [hdigit]),
      List.append_nil]
  have hlength : w.length ≠ 0 := mt List.length_eq_zero_iff.1 hne
  simp [digitsLength?, htake, hne, hword]

theorem isWord_digits (hne : w ≠ []) (hw : ∀ c ∈ w, c.isDigit = true) : IsWord w := by
  obtain ⟨c, cs, rfl⟩ := List.exists_cons_of_ne_nil hne
  obtain ⟨hslash, hquote, hminus, -, -, hblank⟩ := only_integer (hw c List.mem_cons_self)
  refine ⟨⟨c, cs, rfl, hblank⟩, ?_, fun {rest} hrest => ?_⟩
  · intro hmem
    exact (only_integer (hw '\n' hmem)).2.2.2.1 rfl
  · have hdigits := digitsLength?_append hne hw hrest
    rw [List.cons_append] at hdigits ⊢
    rw [lexemeLength?_of_ne_slash hslash, stringLength?_of_ne hquote, integerLength?,
      if_neg hminus, hdigits]
    rfl

theorem isWord_decimal (n : Int) : IsWord (toString n).toList := by
  have hdigits (n : Nat) : ∀ c ∈ decimal n, c.isDigit = true := fun c => Text.isDigit_of_mem_decimal
  have hne (n : Nat) : decimal n ≠ [] := Nat.toDigits_ne_nil
  cases n with
  | ofNat n =>
    rw [Int.ofNat_eq_natCast, Text.toList_toString_nat]
    exact isWord_digits (hne n) (hdigits n)
  | negSucc n =>
    rw [Text.toList_toString_neg]
    have hword := isWord_digits (hne (n + 1)) (hdigits (n + 1))
    refine ⟨⟨'-', _, rfl, by decide⟩, ?_, fun {rest} hrest => ?_⟩
    · simp [hword.newline]
    · rw [List.cons_append, lexemeLength?_of_ne_slash (by decide), stringLength?_of_ne (by decide),
        integerLength?, if_pos rfl, digitsLength?_append (hne _) (hdigits _) hrest]
      rfl

/-! ## Comments -/

theorem kindOf_eq_comment (h : kindOf cs = .comment) :
    ∃ d rest, cs = '/' :: d :: rest ∧ (d = '/' ∨ d = '*') := by
  match cs with
  | [] => cases h
  | [c] => grind [kindOf]
  | c :: d :: cs => grind [kindOf]

theorem lexemeLength?_slashes (cs : List Char) :
    lexemeLength? ('/' :: '/' :: cs) = some (2 + (cs.takeWhile (· ≠ '\n')).length) := by
  simp [lexemeLength?, blockCommentLength?, lineCommentLength?]

/-- A comment that is no block stands on one line. -/
theorem newline_of_kind {t : Token} (ht : t.IsLexeme) (hkind : t.kind = .comment) :
    (∃ rest, t.text.toList = '/' :: '*' :: rest) ∨ '\n' ∉ t.text.toList := by
  obtain ⟨cs, n, hlength, htext⟩ := ht.front
  rw [ht.kind] at hkind
  obtain ⟨d, rest, heq, rfl | rfl⟩ := kindOf_eq_comment hkind
  · refine .inr ?_
    have hcs : cs = '/' :: '/' :: (rest ++ cs.drop n) := by
      rw [← List.cons_append, ← List.cons_append, ← heq, htext, List.take_append_drop]
    generalize rest ++ cs.drop n = more at hcs
    subst hcs
    rw [lexemeLength?_slashes] at hlength
    cases hlength
    have hfront := List.prefix_iff_eq_take.1 ( List.takeWhile_prefix (· ≠ '\n') (l := more))
    rw [htext, Nat.add_comm, List.take_succ_cons, List.take_succ_cons, ← hfront]
    have hnone : '\n' ∉ more.takeWhile (· ≠ '\n') := by
      intro hmem
      simpa using List.all_eq_true.1 (List.all_takeWhile (p := (· ≠ '\n')) (l := more)) _ hmem
    simp only [List.mem_cons, not_or]
    exact ⟨by decide, by decide, hnone⟩
  · exact .inl ⟨rest, heq⟩

theorem lexemeLength?_lineComment (h : '\n' ∉ cs) (rest : List Char) :
    lexemeLength? ('/' :: '/' :: cs ++ '\n' :: rest) = some (cs.length + 2) := by
  have htake : (cs ++ '\n' :: rest).takeWhile (· ≠ '\n') = cs := by
    have hall (c : Char) (hc : c ∈ cs) : decide (c ≠ '\n') = true :=
      decide_eq_true fun heq => h (heq ▸ hc)
    rw [List.takeWhile_append_of_pos hall, List.takeWhile_cons_of_neg (by simp), List.append_nil]
  rw [List.cons_append, List.cons_append, lexemeLength?_slashes, htake, Nat.add_comm]

end SchemaGen.Token
