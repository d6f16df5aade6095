import SchemaGen.Proofs.Rendering
import SchemaGen.Proofs.TokenPlaces

/-!
# Layout

Every token of a text is cut off in the same way wherever it stands, if only a blank stands behind
it: a block comment and a string end by themselves, and what a name, a number or a line comment
needs to end is there. So the tokens of a text can be written with other blanks between them, and
the same tokens are read.

Results:
1. `only_blank`: a blank starts no other lexeme and goes on with none.
2. `lexemeLength?_moved`: a lexeme is one again before a blank.
3. `scan_spaced`: tokens with blanks between them are read as these tokens.
-/

namespace SchemaGen.Token

open Text (Position isBlank isDigit isWord)

/-! ## Definitions -/

/-- What a token is, apart from its position. -/
def word (t : Token) : TokenKind × String :=
  (t.kind, t.text)

/-- Blanks that can stand behind the text of a token. Behind a line comment they start with a
newline. -/
structure IsGap (text gap : List Char) : Prop where
  ne_nil : gap ≠ []
  blank : ∀ c ∈ gap, isBlank c = true
  newline : ['/', '/'] <+: text → gap.head? = some '\n'

/-- `Spaced ts cs`: the text `cs` is made of the texts of the tokens `ts` in their order, with blanks
between each two of them. -/
inductive Spaced : List Token → List Char → Prop
  | nil : Spaced [] []
  | last {t : Token} : Spaced [t] t.text.toList
  | cons {t next : Token} {ts : List Token} {gap cs : List Char} (hgap : IsGap t.text.toList gap)
      (hrest : Spaced (next :: ts) cs) : Spaced (t :: next :: ts) (t.text.toList ++ (gap ++ cs))

/-- The text `rest` can stand behind the text of a token: it is empty, or starts with a blank. -/
def Follows (text rest : List Char) : Prop :=
  ∀ c, rest.head? = some c → isBlank c = true ∧ (['/', '/'] <+: text → c = '\n')

/-! ## 1. Blanks -/

/-- Whether no range of one table meets one of the other. -/
def apart (table ranges : List (Nat × Nat)) : Bool :=
  ranges.all fun r => table.all fun t => t.2 < r.1 || r.2 < t.1

variable {c : Char} {rest cs : List Char} {n : Nat} {w more : List Char} {t : Token}
  {ts : List Token}

theorem inRanges_of_apart {table ranges : List (Nat × Nat)} (h : apart table ranges = true)
    (hc : Text.inRanges ranges c = true) : Text.inRanges table c = false := by
  obtain ⟨r, hr, hin⟩ := List.any_eq_true.1 hc
  refine List.any_eq_false.2 fun t ht => ?_
  have hapart := List.all_eq_true.1 (List.all_eq_true.1 h r hr) t ht
  simp only [Bool.and_eq_true, Bool.or_eq_true, decide_eq_true_eq] at hin hapart ⊢
  omega

theorem isWord_of_isBlank (h : isBlank c = true) : isWord c = false := by
  by_cases hascii : c.toNat < 128
  · revert h
    exact of_ascii (P := fun c => isBlank c = true → isWord c = false) (by decide +kernel) hascii
  · have hascii' : Text.isAscii c = false := decide_eq_false hascii
    rw [isWord, hascii']
    exact inRanges_of_apart (by decide +kernel) h

/-- A blank starts nothing but blanks. -/
theorem only_blank (h : isBlank c = true) :
    c ≠ '/' ∧ c ≠ '"' ∧ c ≠ '-' ∧ c ≠ '.' ∧ isDigit c = false ∧ isNameStart c = false ∧
      isSymbol c = false := by
  have hne {d : Char} (hd : isBlank d = false) : c ≠ d := by
    rintro rfl
    exact absurd h (by simp [hd])
  refine ⟨hne (by decide), hne (by decide), hne (by decide), hne (by decide), ?_, ?_, ?_⟩
  · refine Bool.eq_false_iff.2 fun hdigit => ?_
    exact absurd (Pattern.isWord_of_isDigit hdigit) (by simp [isWord_of_isBlank h])
  · refine Bool.eq_false_iff.2 fun hstart => ?_
    obtain ⟨-, -, -, -, -, -, hblank⟩ := only_name (.inr hstart)
    exact absurd h (by simp [hblank])
  · refine Bool.eq_false_iff.2 fun hsymbol => ?_
    obtain ⟨d, cs, heq, hblank⟩ := (isWord_symbol hsymbol).visible
    obtain ⟨rfl, -⟩ := List.cons.inj heq
    exact absurd h (by simp [hblank])

theorem lexemeLength?_of_isBlank (h : isBlank c = true) (cs : List Char) :
    lexemeLength? (c :: cs) = some ((c :: cs).takeWhile isBlank).length := by
  obtain ⟨hslash, hquote, hminus, hdot, hdigit, hstart, hsymbol⟩ := only_blank h
  have hothers : symbolLength? (c :: cs) = none := by simp [symbolLength?, hsymbol]
  have hblanks : blanksLength? (c :: cs) = some ((c :: cs).takeWhile isBlank).length := by
    simp [blanksLength?, h]
  rw [lexemeLength?_of_ne_slash hslash, stringLength?_of_ne hquote,
    integerLength?_of_not_digit hminus hdigit, nameLength?_of_not_start hdot hstart, hothers,
    hblanks]
  rfl

theorem isNameChar_of_isBlank (h : isBlank c = true) : isNameChar c = false := by
  obtain ⟨-, -, -, -, -, hstart, -⟩ := only_blank h
  have hdigit : c.isDigit = false := by
    refine Bool.eq_false_iff.2 fun hdigit => ?_
    obtain ⟨-, -, -, -, -, hblank⟩ := only_integer hdigit
    exact absurd h (by simp [hblank])
  rw [isNameStart, Bool.or_eq_false_iff] at hstart
  simp only [isNameChar, Char.isAlphanum, hstart.1, hdigit, hstart.2, Bool.or_false]

theorem nameTail_blank (h : ∀ c, rest.head? = some c → isBlank c = true) : nameTail rest = 0 := by
  cases rest with
  | nil => rfl
  | cons c rest =>
    have hblank := h c rfl
    simp [nameTail, isNameChar_of_isBlank hblank, (only_blank hblank).2.2.2.1]

/-! ## 2. Lexemes at other places -/

theorem blockEnd?_bounds (h : blockEnd? cs = some n) : 2 ≤ n ∧ n ≤ cs.length := by
  induction cs generalizing n with
  | nil => cases h
  | cons c cs ih =>
    rw [blockEnd?] at h
    split at h
    · next hend =>
      cases h
      cases cs with
      | nil => cases hend.2
      | cons d cs => simp
    · obtain ⟨m, hm, rfl⟩ := Option.map_eq_some_iff.1 h
      have hbounds := ih hm
      rw [List.length_cons]
      omega

theorem blockEnd?_moved (h : blockEnd? (w ++ more) = some w.length) (rest : List Char) :
    blockEnd? (w ++ rest) = some w.length := by
  induction w with
  | nil => exact absurd (blockEnd?_bounds h).1 (by simp)
  | cons c w ih =>
    cases w with
    | nil => exact absurd (blockEnd?_bounds h).1 (by simp)
    | cons d w =>
      rw [List.cons_append, blockEnd?] at h ⊢
      split at h
      · next hend => exact (if_pos hend).trans h
      · next hmore =>
        refine (if_neg hmore).trans ?_
        obtain ⟨n, hn, hlength⟩ := Option.map_eq_some_iff.1 h
        rw [List.length_cons, Nat.add_right_cancel_iff] at hlength
        rw [ih (hlength ▸ hn)]
        rfl

theorem stringEnd?_bounds (h : stringEnd? cs = some n) : 0 < n ∧ n ≤ cs.length := by
  fun_induction stringEnd? cs generalizing n <;> grind [Option.map_eq_some_iff]

theorem stringEnd?_quote (cs : List Char) : stringEnd? ('"' :: cs) = some 1 := by
  cases cs <;> rfl

theorem stringEnd?_moved {w more : List Char} (h : stringEnd? (w ++ more) = some w.length)
    (rest : List Char) : stringEnd? (w ++ rest) = some w.length := by
  match w with
  | [] => exact absurd (stringEnd?_bounds h).1 (by simp)
  | [c] =>
    have hquote : c = '"' := by
      cases more with
      | nil => grind [stringEnd?]
      | cons d more => grind [stringEnd?, Option.map_eq_some_iff, → stringEnd?_bounds]
    rw [hquote]
    exact stringEnd?_quote rest
  | c :: d :: w =>
    rw [List.cons_append, List.cons_append, stringEnd?] at h ⊢
    split at h
    · next hquote => exact (if_pos hquote).trans h
    next hquote =>
    split at h
    · cases h
    next hnewline =>
    refine (if_neg hquote).trans ((if_neg hnewline).trans ?_)
    split at h
    · next hbackslash =>
      obtain ⟨n, hn, hlength⟩ := Option.map_eq_some_iff.1 h
      obtain rfl : n = w.length := by simpa using hlength
      rw [if_pos hbackslash, stringEnd?_moved hn]
      rfl
    · next hbackslash =>
      obtain ⟨n, hn, hlength⟩ := Option.map_eq_some_iff.1 h
      obtain rfl : n = (d :: w).length := by simpa using hlength
      rw [if_neg hbackslash, ← List.cons_append, stringEnd?_moved hn]
      rfl

theorem forall_mem_of_takeWhile {p : Char → Bool}
    (h : ((w ++ more).takeWhile p).length = w.length) : ∀ c ∈ w, p c = true := by
  have hfront := List.prefix_iff_eq_take.1 ( List.takeWhile_prefix p (l := w ++ more))
  rw [h, List.take_left] at hfront
  have hall := List.all_takeWhile (p := p) (l := w ++ more)
  rwa [hfront, List.all_eq_true] at hall

theorem takeWhile_append_stop {p : Char → Bool} (hw : ∀ c ∈ w, p c = true)
    (hrest : ∀ c, rest.head? = some c → p c = false) : (w ++ rest).takeWhile p = w := by
  have hstop : rest.takeWhile p = [] := by
    cases rest with
    | nil => rfl
    | cons c rest => simp [hrest c rfl]
  rw [List.takeWhile_append_of_pos hw, hstop, List.append_nil]

theorem digitsLength?_moved (h : digitsLength? (w ++ more) = some w.length)
    (hrest : ∀ c, rest.head? = some c → isBlank c = true) :
    digitsLength? (w ++ rest) = some w.length := by
  rw [digitsLength?] at h ⊢
  have hlength : ((w ++ more).takeWhile isDigit).length = w.length ∧ w.length ≠ 0 := by grind
  have hword : rest.head?.any isWord = false := by
    cases hhead : rest.head? with
    | none => rfl
    | some c => exact isWord_of_isBlank (hrest c hhead)
  have hdigit (c : Char) (hc : rest.head? = some c) : isDigit c = false :=
    (only_blank (hrest c hc)).2.2.2.2.1
  have htake := takeWhile_append_stop (forall_mem_of_takeWhile hlength.1) hdigit
  simp only [htake, hlength.2, if_false, List.drop_left, hword]
  rfl

theorem stringLength?_moved (h : stringLength? (c :: (w ++ more)) = some (w.length + 1))
    (rest : List Char) : c = '"' ∧ stringLength? (c :: (w ++ rest)) = some (w.length + 1) := by
  rw [stringLength?] at h ⊢
  split at h
  · next hquote =>
    obtain ⟨n, hn, hlength⟩ := Option.map_eq_some_iff.1 h
    obtain rfl : n = w.length := by simpa using hlength
    rw [if_pos hquote, stringEnd?_moved hn]
    exact ⟨hquote, rfl⟩
  · cases h

theorem integerLength?_moved (h : integerLength? (c :: (w ++ more)) = some (w.length + 1))
    (hrest : ∀ c, rest.head? = some c → isBlank c = true) :
    integerLength? (c :: (w ++ rest)) = some (w.length + 1) ∧ (c = '-' ∨ isDigit c = true) := by
  rw [integerLength?] at h ⊢
  split at h
  · next hminus =>
    obtain ⟨n, hn, hlength⟩ := Option.map_eq_some_iff.1 h
    obtain rfl : n = w.length := by simpa using hlength
    rw [if_pos hminus, digitsLength?_moved hn hrest]
    exact ⟨rfl, .inl hminus⟩
  · next hminus =>
    rw [if_neg hminus]
    rw [← List.cons_append] at h ⊢
    refine ⟨digitsLength?_moved h hrest, .inr ?_⟩
    refine Decidable.byContradiction fun hdigit => ?_
    rw [List.cons_append, digitsLength?_of_not_digit (Bool.eq_false_iff.2 hdigit)] at h
    cases h

theorem nameLength?_moved (h : nameLength? (w ++ more) = some w.length)
    (hrest : ∀ c, rest.head? = some c → isBlank c = true) :
    nameLength? (w ++ rest) = some w.length := by
  have hname := isName_take h
  rw [List.take_left] at hname
  exact nameLength?_append hname (nameTail_blank hrest)

theorem blockCommentLength?_bounds (h : blockCommentLength? cs = some n) :
    2 ≤ n ∧ n ≤ cs.length := by
  unfold blockCommentLength? at h
  split at h
  · split at h
    · obtain ⟨m, hm, rfl⟩ := Option.map_eq_some_iff.1 h
      have hbounds := blockEnd?_bounds hm
      simp only [List.length_cons]
      omega
    · cases h
  · cases h

theorem lineCommentLength?_bounds (h : lineCommentLength? cs = some n) : 2 ≤ n ∧ n ≤ cs.length := by
  unfold lineCommentLength? at h
  split at h
  next c d cs =>
    split at h
    · cases h
      have hlength := ( List.takeWhile_prefix (· ≠ '\n') (l := cs)).length_le
      simp only [List.length_cons]
      omega
    · cases h
  · cases h

/-- A lexeme is one of its class. -/
theorem lexemeLength?_cases (h : lexemeLength? cs = some n) :
    blockCommentLength? cs = some n ∨ lineCommentLength? cs = some n ∨ stringLength? cs = some n ∨
      integerLength? cs = some n ∨ nameLength? cs = some n ∨ symbolLength? cs = some n ∨
      blanksLength? cs = some n := by
  simp only [lexemeLength?, Option.orElse_eq_orElse, Option.orElse_eq_or,
    Option.or_eq_some_iff] at h
  grind

theorem digitsLength?_le_length (h : digitsLength? cs = some n) : n ≤ cs.length := by
  have hlength := ( List.takeWhile_prefix isDigit (l := cs)).length_le
  grind [digitsLength?]

theorem lexemeLength?_le_length (h : lexemeLength? cs = some n) : n ≤ cs.length := by
  rcases lexemeLength?_cases h with h | h | h | h | h | h | h
  · exact (blockCommentLength?_bounds h).2
  · exact (lineCommentLength?_bounds h).2
  · unfold stringLength? at h
    split at h <;> grind [Option.map_eq_some_iff, → stringEnd?_bounds]
  · unfold integerLength? at h
    split at h <;> grind [Option.map_eq_some_iff, → digitsLength?_le_length]
  · unfold nameLength? at h
    split at h <;> grind [nameTail_le_length]
  · unfold symbolLength? at h
    split at h <;> grind
  · have hlength := ( List.takeWhile_prefix isBlank (l := cs)).length_le
    grind [blanksLength?]

theorem blockCommentLength?_moved (h : blockCommentLength? (w ++ more) = some w.length)
    (rest : List Char) : blockCommentLength? (w ++ rest) = some w.length := by
  match w with
  | [] => exact absurd (blockCommentLength?_bounds h).1 (by simp)
  | [c] => exact absurd (blockCommentLength?_bounds h).1 (by simp)
  | c :: d :: w =>
    rw [List.cons_append, List.cons_append, blockCommentLength?] at h ⊢
    split at h
    · next hopening =>
      obtain ⟨n, hn, hlength⟩ := Option.map_eq_some_iff.1 h
      obtain rfl : n = w.length := by simpa using hlength
      rw [if_pos hopening, blockEnd?_moved hn]
      rfl
    · cases h

theorem lineCommentLength?_moved (h : lineCommentLength? (w ++ more) = some w.length)
    (hrest : Follows w rest) : lexemeLength? (w ++ rest) = some w.length := by
  match w with
  | [] => exact absurd (lineCommentLength?_bounds h).1 (by simp)
  | [c] => exact absurd (lineCommentLength?_bounds h).1 (by simp)
  | c :: d :: w =>
    rw [List.cons_append, List.cons_append] at h ⊢
    rw [lineCommentLength?] at h
    split at h
    · next hopening =>
      obtain ⟨rfl, rfl⟩ := hopening
      have hlength : ((w ++ more).takeWhile (· ≠ '\n')).length = w.length := by
        rw [Option.some.injEq, List.length_cons, List.length_cons] at h
        omega
      have hnewline (c : Char) (hc : rest.head? = some c) : decide (c ≠ '\n') = false := by
        simpa using (hrest c hc).2 ⟨w, rfl⟩
      have htake := takeWhile_append_stop (forall_mem_of_takeWhile hlength) hnewline
      rw [lexemeLength?_slashes, htake, List.length_cons, List.length_cons, Nat.add_comm]
    · cases h

/-- A lexeme that is more than blanks is one again before a blank, or at the end. -/
theorem lexemeLength?_moved (h : lexemeLength? (w ++ more) = some w.length)
    (hw : w.all isBlank = false) (hrest : Follows w rest) :
    lexemeLength? (w ++ rest) = some w.length := by
  have hblank (c : Char) (hc : rest.head? = some c) : isBlank c = true := (hrest c hc).1
  obtain ⟨c, w, rfl⟩ : ∃ c w', w = c :: w' := by
    cases w with
    | nil => cases hw
    | cons c w => exact ⟨c, w, rfl⟩
  rcases lexemeLength?_cases h with h | h | h | h | h | h | h
  · rw [lexemeLength?, blockCommentLength?_moved h]
    rfl
  · exact lineCommentLength?_moved h hrest
  · obtain ⟨rfl, hlength⟩ := stringLength?_moved h rest
    rw [List.cons_append, lexemeLength?_of_ne_slash (by decide), hlength]
    rfl
  · obtain ⟨hlength, hfirst⟩ := integerLength?_moved h hblank
    have hother : c ≠ '/' ∧ c ≠ '"' := by
      rcases hfirst with rfl | hdigit
      · decide
      · constructor
        · rintro rfl
          exact absurd hdigit (by decide)
        · rintro rfl
          exact absurd hdigit (by decide)
    rw [List.cons_append, lexemeLength?_of_ne_slash hother.1, stringLength?_of_ne hother.2, hlength]
    rfl
  · have hlength := nameLength?_moved h hblank
    have hfirst : c = '.' ∨ isNameStart c = true := by
      grind [nameLength?]
    rw [← hlength]
    exact lexemeLength?_eq_nameLength? hfirst
  · rw [List.cons_append, symbolLength?] at h
    split at h
    · next hsymbol =>
      rw [List.cons_append, lexemeLength?_symbol hsymbol]
      exact h
    · cases h
  · -- A run of blanks is nothing more.
    have hlength : ((c :: w ++ more).takeWhile isBlank).length = (c :: w).length := by
      grind [blanksLength?]
    have hall := List.all_eq_true.2 (forall_mem_of_takeWhile hlength)
    exact absurd hall (by simp [hw])

/-! ## 3. Tokens with other blanks between them -/

/-- The text of a token is a lexeme before what followed it. -/
theorem exists_more_of_isLexeme (ht : t.IsLexeme) :
    ∃ more, lexemeLength? (t.text.toList ++ more) = some t.text.toList.length := by
  obtain ⟨cs, n, hn, htext⟩ := ht.front
  have hlength : (cs.take n).length = n := by
    rw [List.length_take, Nat.min_eq_left (lexemeLength?_le_length hn)]
  exact ⟨cs.drop n, by rw [htext, List.take_append_drop, hlength, hn]⟩

/-- What is more than blanks does not start with one. -/
theorem visible_of_isLexeme (ht : t.IsLexeme) (hblank : t.text.toList.all isBlank = false) :
    ∃ c cs, t.text.toList = c :: cs ∧ isBlank c = false := by
  obtain ⟨more, hmore⟩ := exists_more_of_isLexeme ht
  generalize t.text.toList = w at hblank hmore
  cases w with
  | nil => cases hblank
  | cons c w =>
    refine ⟨c, w, rfl, Bool.eq_false_iff.2 fun hc => ?_⟩
    rw [List.cons_append, lexemeLength?_of_isBlank hc, ← List.cons_append] at hmore
    have hall := List.all_eq_true.2 (forall_mem_of_takeWhile (Option.some.inj hmore))
    exact absurd hall (by simp [hblank])

theorem scan_gap {gap : List Char} (hne : gap ≠ []) (hgap : ∀ c ∈ gap, isBlank c = true)
    (hrest : Started rest) (p : Position) : scan p (gap ++ rest) = scan (p.after gap) rest := by
  have hrun := takeWhile_append_stop hgap hrest
  have hlength : lexemeLength? (gap ++ rest) = some gap.length := by
    obtain ⟨c, gap, rfl⟩ := List.exists_cons_of_ne_nil hne
    have hfirst := lexemeLength?_of_isBlank (hgap c List.mem_cons_self) (gap ++ rest)
    rwa [← List.cons_append, hrun] at hfirst
  rw [scan_lexeme hlength, List.take_left, List.drop_left, List.all_eq_true.2 hgap]
  cases scan (p.after gap) rest <;> rfl

theorem started_of_spaced (h : Spaced (t :: ts) cs)
    (ht : ∃ c cs, t.text.toList = c :: cs ∧ isBlank c = false) : Started cs := by
  cases h with
  | last => simpa using started_of_visible ht []
  | cons => exact started_of_visible ht _

/-- A token is read again before a blank, or at the end. -/
theorem scan_token (ht : t.IsLexeme) (hblank : t.text.toList.all isBlank = false)
    (hrest : Follows t.text.toList rest) {p : Position}
    (hts : scan (p.after t.text.toList) rest = .ok ts) :
    ∃ t', scan p (t.text.toList ++ rest) = .ok (t' :: ts) ∧ t'.word = t.word := by
  obtain ⟨more, hmore⟩ := exists_more_of_isLexeme ht
  have hlength := lexemeLength?_moved hmore hblank hrest
  exact ⟨_, scan_word (visible_of_isLexeme ht hblank) hlength hts, by rw [word, word, ht.kind]⟩

/-- Tokens that are written with blanks between them are read again, and the end behind them. -/
theorem scan_spaced (h : Spaced ts cs) (hlexeme : ∀ t ∈ ts, t.IsLexeme)
    (hblank : ∀ t ∈ ts, t.text.toList.all isBlank = false) (p : Position) :
    ∃ ts', scan p cs = .ok ts' ∧ ts'.map word = ts.map word ++ [(.endOfFile, "")] := by
  have hmark (p : Position) : scan p [] = .ok [⟨.endOfFile, "", p⟩] := by
    rw [scan]
    rfl
  induction h generalizing p with
  | nil => exact ⟨_, hmark p, rfl⟩
  | @last t =>
    have ht := hlexeme t List.mem_cons_self
    have hend : Follows t.text.toList [] := fun _ h => by cases h
    obtain ⟨t', hscan, hword⟩ := scan_token ht (hblank t List.mem_cons_self) hend (hmark _)
    rw [List.append_nil] at hscan
    exact ⟨_, hscan, by rw [List.map_cons, hword]; rfl⟩
  | @cons t next ts gap cs hgap hspaced ih =>
    rw [List.forall_mem_cons] at hlexeme hblank
    obtain ⟨ts', hts', hwords⟩ := ih hlexeme.2 hblank.2 ((p.after t.text.toList).after gap)
    have hnext := visible_of_isLexeme (hlexeme.2 next List.mem_cons_self)
      (hblank.2 next List.mem_cons_self)
    have hgap' : Follows t.text.toList (gap ++ cs) := by
      intro d hd
      obtain ⟨c, gap, rfl⟩ := List.exists_cons_of_ne_nil hgap.ne_nil
      obtain rfl : c = d := Option.some.inj hd
      exact ⟨hgap.blank c List.mem_cons_self, fun hline => Option.some.inj (hgap.newline hline)⟩
    rw [← scan_gap hgap.ne_nil hgap.blank (started_of_spaced hspaced hnext)] at hts'
    obtain ⟨t', hscan, hword⟩ := scan_token hlexeme.1 hblank.1 hgap' hts'
    exact ⟨_, hscan, by rw [List.map_cons, hword, hwords]; rfl⟩

theorem Scanned.exists_mark (h : Scanned ts) :
    ∃ lexemes mark, ts = lexemes ++ [mark] ∧ (∀ t ∈ lexemes, t.IsLexeme) ∧
      mark.kind = .endOfFile ∧ mark.text = "" := by
  induction h with
  | @last mark hkind htext => exact ⟨[], mark, rfl, by simp, hkind, htext⟩
  | @cons t ts ht _ ih =>
    obtain ⟨lexemes, mark, rfl, hlexemes, hmark⟩ := ih
    exact ⟨t :: lexemes, mark, rfl, List.forall_mem_cons.2 ⟨ht, hlexemes⟩, hmark⟩

/-- The texts of tokens are more than blanks. -/
theorem all_isBlank_of_mem (before : List Char) (h : scan (.counted before) cs = .ok ts)
    (ht : t ∈ ts.dropLast) : t.text.toList.all isBlank = false := by
  obtain ⟨lexemes, rest, -, -, hexplains⟩ := scan_explained before cs
  rw [h] at hexplains
  obtain ⟨-, -, htexts⟩ := hexplains
  have hmem : t.text.toList ∈ ts.dropLast.map (·.text.toList) := List.mem_map_of_mem ht
  rw [htexts, List.mem_filter] at hmem
  simpa using hmem.2

/-- The tokens of a text are read again from every text that is made of them and blanks between
them. -/
theorem tokenize_spaced {text : String} (h : tokenize text = .ok ts) (hcs : Spaced ts.dropLast cs) :
    ∃ ts', tokenize (String.ofList cs) = .ok ts' ∧ ts'.map word = ts.map word := by
  have hblank : ∀ t ∈ ts.dropLast, t.text.toList.all isBlank = false :=
    fun t ht => all_isBlank_of_mem [] h ht
  obtain ⟨lexemes, mark, rfl, hlexemes, hkind, htext⟩ := (scanned_of_tokenize h).exists_mark
  rw [List.dropLast_concat] at hcs hblank
  obtain ⟨ts', hts', hwords⟩ := scan_spaced hcs hlexemes hblank .start
  refine ⟨ts', ?_, ?_⟩
  · rw [tokenize, String.toList_ofList, hts']
  · rw [hwords, List.map_append, List.map_singleton, word, hkind, htext]

end SchemaGen.Token
