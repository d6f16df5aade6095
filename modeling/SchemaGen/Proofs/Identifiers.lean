import SchemaGen.Proofs.Collisions

/-!
# Identifiers in Rust sources

A name passes through a change of case and then through `escapeKeyword` before it stands in a
source. This module says for which names the result is an identifier of the language, and for which
two names it is the same.

Case changes keep the characters of a name apart from their case and from underscores, so a dot
stays (`Text.pascalChars_toLower`, `Text.letters_snakeAfter`). Types lose their underscores, and
with them what stood before a leading digit. Fields keep them, and `escapeKeyword` knows the words
that the language uses but not those it keeps for later.

Results:
1. `Rust.isIdentifier_typeName_iff`, `Rust.isIdentifier_fieldName_iff`: the names that give
   identifiers.
2. `Rust.typeName_eq_iff`, `Rust.fieldName_eq_iff`: the names that give the same identifier.
-/

namespace SchemaGen

open Token (IsName isNameStart isNameChar)

/-! ## Definitions -/

namespace Rust

/-- The words that the language uses. -/
def strictWords : List String :=
  ["as", "async", "await", "break", "const", "continue", "crate", "dyn", "else", "enum", "extern",
   "false", "fn", "for", "if", "impl", "in", "let", "loop", "match", "mod", "move", "mut", "pub",
   "ref", "return", "self", "Self", "static", "struct", "super", "trait", "true", "type", "unsafe",
   "use", "where", "while"]

/-- The words that the language keeps for later. -/
def futureWords : List String :=
  ["abstract", "become", "box", "do", "final", "macro", "override", "priv", "try", "typeof",
   "unsized", "virtual", "yield"]

/-- The text starts with a letter or an underscore and goes on with letters, digits and
underscores. -/
def IsWordlike (s : String) : Prop :=
  s.toList.head?.any isNameStart = true ∧ s.toList.all isNameChar = true

/-- The text is an identifier of the language. -/
def IsIdentifier (s : String) : Prop :=
  IsWordlike s ∧ s ≠ "_" ∧ s ∉ strictWords ∧ s ∉ futureWords

instance : DecidablePred IsWordlike := fun _ => inferInstanceAs (Decidable (_ ∧ _))

instance : DecidablePred IsIdentifier := fun _ => inferInstanceAs (Decidable (_ ∧ _))

/-- The forms of a word that snake case does not take apart: in small letters, with a capital first
letter, in capitals. -/
def formsOf (word : List Char) : List (List Char) :=
  [word, word.head?.toList.map Char.toUpper ++ word.tail, word.map Char.toUpper]

/-- The name has no dot, and a letter comes first behind the underscores at its front. -/
def NamesType (name : String) : Prop :=
  '.' ∉ name.toList ∧ (name.toList.dropWhile (· = '_')).head?.any Char.isAlpha = true

/-- The name has no dot, is not just an underscore, and is no form of a word that the language keeps
for later. -/
def NamesField (name : String) : Prop :=
  '.' ∉ name.toList ∧ name ≠ "_" ∧ ∀ word ∈ futureWords, name.toList ∉ formsOf word.toList

instance : DecidablePred NamesType := fun _ => inferInstanceAs (Decidable (_ ∧ _))

instance : DecidablePred NamesField := fun _ => inferInstanceAs (Decidable (_ ∧ _))

end Rust

/-! ## 1. Changes of case -/

namespace Text

/-- All characters are ASCII characters. -/
def IsAscii (cs : List Char) : Prop :=
  ∀ c ∈ cs, c.toNat < 128

/-- The characters apart from underscores, in small letters. -/
def letters (cs : List Char) : List Char :=
  (cs.filter (· ≠ '_')).map Char.toLower

/-- What the two cases of a character have to do with each other and with the classes of
characters. -/
@[mk_iff]
structure CaseLaws (c : Char) : Prop where
  toLower_toLower : c.toLower.toLower = c.toLower
  toLower_toUpper : c.toUpper.toLower = c.toLower
  eq_or_eq_toUpper : c = c.toLower ∨ c = c.toLower.toUpper
  toLower_eq_self : c.isUpper = false → c.toLower = c
  isUpper_of_isLower : c.isLower = true → c.isUpper = false ∧ c.toUpper.isUpper = true
  isLower_toUpper : c.toUpper.isLower = false
  toLower_eq_underscore : c.toLower = '_' ↔ c = '_'
  toLower_eq_dot : c.toLower = '.' ↔ c = '.'
  isNameChar_toLower : isNameChar c.toLower = isNameChar c
  isNameStart_toLower : isNameStart c.toLower = isNameStart c
  isNameStart_toUpper : isNameStart c.toUpper = isNameStart c

instance : DecidablePred CaseLaws := fun c => decidable_of_iff _ (caseLaws_iff c).symm

variable {c : Char} {cs : List Char} {p : Char → Bool} {w : Char}

theorem IsAscii.head (h : IsAscii (c :: cs)) : c.toNat < 128 :=
  h c List.mem_cons_self

theorem IsAscii.tail (h : IsAscii (c :: cs)) : IsAscii cs :=
  fun d hd => h d (List.mem_cons_of_mem _ hd)

section Ascii

variable {c : Char} (hc : c.toNat < 128)

include hc

theorem isAscii_eq_true : isAscii c = true :=
  decide_eq_true hc

theorem small_eq : small c = [c.toLower] := by
  rw [small, if_pos (isAscii_eq_true hc)]

theorem capital_eq : capital c = [c.toUpper] := by
  rw [capital, if_pos (isAscii_eq_true hc)]

theorem isCapital_eq : isCapital c = c.isUpper := by
  rw [isCapital, if_pos (isAscii_eq_true hc)]

theorem isSmall_eq : isSmall c = c.isLower := by
  rw [isSmall, if_pos (isAscii_eq_true hc)]

theorem caseLaws_of_ascii : CaseLaws c :=
  Token.of_ascii (by decide +kernel) hc

end Ascii

/-- The class has the underscore, and each letter in both cases or in none. -/
structure Caseless (p : Char → Bool) : Prop where
  underscore : p '_' = true
  lower : ∀ c : Char, p c.toLower = p c

/-- Only ASCII letters have a case here. -/
theorem caseless_of_ascii (hunderscore : p '_' = true)
    (h : ∀ c : Char, c.toNat < 128 → p c.toLower = p c) : Caseless p := by
  refine ⟨hunderscore, fun c => ?_⟩
  by_cases hc : c.toNat < 128
  · exact h c hc
  · have hnot : ¬ (c.val ≥ 'A'.val ∧ c.val ≤ 'Z'.val) := fun h =>
      hc (Nat.lt_of_le_of_lt (UInt32.le_iff_toNat_le.1 h.2) (by decide))
    exact congrArg p (dif_neg hnot)

theorem Caseless.all_letters (hp : Caseless p) (cs : List Char) :
    (letters cs).all p = cs.all p := by
  induction cs with
  | nil => rfl
  | cons c cs ih =>
    by_cases hc : c = '_'
    · rw [letters, List.filter_cons_of_neg (by simp [hc]), List.all_cons, hc, hp.underscore]
      exact ih
    · rw [letters, List.filter_cons_of_pos (by simp [hc]), List.map_cons, List.all_cons,
        List.all_cons, hp.lower]
      exact congrArg _ ih

/-! ### Pascal case -/

theorem smallsAfter_toLower (before : List Char) (h : IsAscii cs) :
    (smallsAfter before cs).map Char.toLower = cs.map Char.toLower := by
  induction cs generalizing before with
  | nil => rfl
  | cons c cs ih =>
    have hsigma : c ≠ 'Σ' := by
      rintro rfl
      exact absurd h.head (by decide)
    rw [smallsAfter, if_neg hsigma, small_eq h.head, List.singleton_append, List.map_cons,
      (caseLaws_of_ascii h.head).toLower_toLower, ih _ h.tail, List.map_cons]

theorem capitalize_toLower (lower : Bool) (h : IsAscii cs) :
    (capitalize lower cs).map Char.toLower = cs.map Char.toLower := by
  cases cs with
  | nil => rfl
  | cons c cs =>
    rw [capitalize, capital_eq h.head, List.singleton_append, List.map_cons,
      (caseLaws_of_ascii h.head).toLower_toUpper, List.map_cons]
    cases lower with
    | false => rfl
    | true => exact congrArg _ (smallsAfter_toLower [] h.tail)

theorem flatten_split (sep : Char) (cs : List Char) :
    (split sep cs).flatten = cs.filter (· ≠ sep) := by
  induction cs with
  | nil => rfl
  | cons c cs ih =>
    rw [split]
    by_cases hc : c = sep
    · rw [if_pos hc, List.flatten_cons, List.nil_append, ih, List.filter_cons_of_neg (by simp [hc])]
    · rw [if_neg hc, List.filter_cons_of_pos (by simp [hc]), ← ih]
      cases split sep cs <;> rfl

/-- Pascal case keeps the letters, digits and dots, and drops the underscores. -/
theorem pascalChars_toLower (h : IsAscii cs) : (pascalChars cs).map Char.toLower = letters cs := by
  unfold pascalChars
  split
  · have hpieces : ∀ piece ∈ split '_' cs,
        (List.map Char.toLower ∘ capitalize true) piece = piece.map Char.toLower :=
      fun piece hpiece => capitalize_toLower true fun c hc =>
        h c (CollisionsLemmas.mem_of_mem_split hpiece hc)
    rw [List.map_flatten, List.map_map, List.map_congr_left hpieces, ← List.map_flatten,
      flatten_split]
    rfl
  · next hunderscore =>
    have hkeep : cs.filter (· ≠ '_') = cs := by
      rw [List.filter_eq_self]
      rintro c hc
      have hne : c ≠ '_' := by
        rintro rfl
        exact hunderscore (List.contains_iff_mem.2 hc)
      simpa using hne
    rw [capitalize_toLower _ h, letters, hkeep]

theorem Caseless.all_pascalChars (hp : Caseless p) (h : IsAscii cs) :
    (pascalChars cs).all p = cs.all p := by
  rw [← hp.all_letters cs, ← pascalChars_toLower h, List.all_map]
  simp only [Function.comp_def, hp.lower]

theorem head?_flatten_capitalize (h : IsAscii cs) :
    ((split '_' cs).map (capitalize true)).flatten.head? =
      (cs.dropWhile (· = '_')).head?.map Char.toUpper := by
  induction cs with
  | nil => rfl
  | cons c cs ih =>
    rw [split]
    by_cases hc : c = '_'
    · rw [if_pos hc, List.dropWhile_cons_of_pos (by simp [hc])]
      exact ih h.tail
    · rw [if_neg hc, List.dropWhile_cons_of_neg (by simp [hc])]
      cases split '_' cs <;> simp [capitalize, capital_eq h.head]

/-- Pascal case starts with the first character that is no underscore. -/
theorem head?_pascalChars (h : IsAscii cs) :
    (pascalChars cs).head? = (cs.dropWhile (· = '_')).head?.map Char.toUpper := by
  unfold pascalChars
  split
  · exact head?_flatten_capitalize h
  · next hunderscore =>
    cases cs with
    | nil => rfl
    | cons c cs =>
      have hne : c ≠ '_' := by
        rintro rfl
        exact hunderscore (by simp)
      rw [List.dropWhile_cons_of_neg (by simp [hne]), capitalize, capital_eq h.head]
      rfl

/-! ### Snake case -/

/-- Snake case lowers a character and may put an underscore before a capital. -/
theorem snakeAfter_cons {before : Option Char} (hc : c.toNat < 128) :
    snakeAfter before (c :: cs) =
      (if c.isUpper ∧ startsWord before cs.head? then ['_'] else []) ++
        c.toLower :: snakeAfter (some c) cs := by
  rw [snakeAfter, isCapital_eq hc, small_eq hc]
  cases hupper : c.isUpper with
  | false => simp [(caseLaws_of_ascii hc).toLower_eq_self hupper]
  | true => cases startsWord before cs.head? <;> simp

theorem snakeAfter_none_cons (hc : c.toNat < 128) :
    snakeAfter none (c :: cs) = c.toLower :: snakeAfter (some c) cs := by
  rw [snakeAfter_cons hc, if_neg (by simp [startsWord])]
  rfl

theorem letters_cons (c : Char) (cs : List Char) :
    letters (c :: cs) = letters [c] ++ letters cs := by
  by_cases hc : c = '_' <;> simp [letters, hc]

/-- Snake case keeps the letters, digits and dots. -/
theorem letters_snakeAfter (before : Option Char) (h : IsAscii cs) :
    letters (snakeAfter before cs) = letters cs := by
  induction cs generalizing before with
  | nil => rfl
  | cons c cs ih =>
    have hlaws := caseLaws_of_ascii h.head
    have hletter : letters [c.toLower] = letters [c] := by
      by_cases hc : c = '_' <;>
        simp [letters, hlaws.toLower_eq_underscore, hlaws.toLower_toLower, hc]
    rw [snakeAfter_cons h.head, letters_cons c, ← hletter, ← ih (some c) h.tail, ← letters_cons]
    split <;> rfl

theorem Caseless.all_snakeAfter (hp : Caseless p) (before : Option Char) (h : IsAscii cs) :
    (snakeAfter before cs).all p = cs.all p := by
  rw [← hp.all_letters, letters_snakeAfter before h, hp.all_letters]

/-! ### Words without underscores -/

theorem toNat_lt_of_isLower (h : w.isLower = true) : w.toNat < 128 :=
  Token.toNat_lt_of_isNameStart (Bool.or_eq_true_iff.2 (.inl (Bool.or_eq_true_iff.2 (.inr h))))

theorem lower_facts (h : w.isLower = true) :
    w.isUpper = false ∧ w ≠ '_' ∧ w.toLower = w ∧ w.toUpper.isUpper = true ∧
      w.toUpper.toLower = w := by
  have hlaws := caseLaws_of_ascii (toNat_lt_of_isLower h)
  obtain ⟨hupper, hcapital⟩ := hlaws.isUpper_of_isLower h
  have hsmall := hlaws.toLower_eq_self hupper
  refine ⟨hupper, ?_, hsmall, hcapital, hlaws.toLower_toUpper.trans hsmall⟩
  rintro rfl
  cases h

theorem toLower_eq_iff (hc : c.toNat < 128) (hw : w.isLower = true) :
    c.toLower = w ↔ c = w ∨ c = w.toUpper := by
  obtain ⟨-, -, hsmall, -, hcapital⟩ := lower_facts hw
  constructor
  · rintro rfl
    exact (caseLaws_of_ascii hc).eq_or_eq_toUpper
  · rintro (rfl | rfl)
    · exact hsmall
    · exact hcapital

theorem startsWord_small {b : Char} (hb : b.isLower = true) (after : Option Char) :
    startsWord (some b) after = true := by
  obtain ⟨hupper, hunderscore, -⟩ := lower_facts hb
  rw [startsWord, isCapital_eq (toNat_lt_of_isLower hb), hupper]
  simpa using hunderscore

theorem startsWord_capital {b : Char} (hb : b.toNat < 128) (hupper : b.isUpper = true)
    (after : Option Char) : startsWord (some b) after = after.any isSmall := by
  rw [startsWord, isCapital_eq hb, hupper]
  rfl

section Forms

variable {cs ws : List Char} (h : IsAscii cs) (hws : ∀ w ∈ ws, w.isLower = true)

/-- The first character gives the first letter, without an underscore before it. -/
theorem snakeAfter_cons_iff {before : Option Char} {c w : Char} (hc : c.toNat < 128)
    (hw : w.isLower = true) :
    snakeAfter before (c :: cs) = w :: ws ↔
      (c.isUpper = true → startsWord before cs.head? = false) ∧ (c = w ∨ c = w.toUpper) ∧
        snakeAfter (some c) cs = ws := by
  have hunderscore := (lower_facts hw).2.1.symm
  rw [snakeAfter_cons hc, ← toLower_eq_iff hc hw]
  cases c.isUpper <;> cases startsWord before cs.head? <;> simp [hunderscore]

include h hws

/-- Behind a small letter only small letters stay together. -/
theorem snakeAfter_small_iff {b : Char} (hb : b.isLower = true) :
    snakeAfter (some b) cs = ws ↔ cs = ws := by
  induction cs generalizing b ws with
  | nil => rfl
  | cons c cs ih =>
    cases ws with
    | nil => simp [snakeAfter_cons h.head]
    | cons w ws =>
      obtain ⟨hw, hlower⟩ := List.forall_mem_cons.1 hws
      obtain ⟨hnot, -, -, hupper, -⟩ := lower_facts hw
      rw [snakeAfter_cons_iff h.head hw, startsWord_small hb]
      constructor
      · rintro ⟨hstart, rfl | rfl, hrest⟩
        · rw [(ih h.tail hlower hw).1 hrest]
        · cases hstart hupper
      · intro heq
        obtain ⟨rfl, rfl⟩ := List.cons.inj heq
        exact ⟨by simp [hnot], .inl rfl, (ih h.tail hlower hw).2 rfl⟩

/-- Of the two forms of a word, the one in capitals does not start with a small letter. -/
theorem head?_any_isSmall_iff (hforms : cs = ws ∨ cs = ws.map Char.toUpper) :
    cs.head?.any isSmall = false ↔ cs = ws.map Char.toUpper := by
  cases ws with
  | nil =>
    obtain rfl : cs = [] := by simpa using hforms
    simp
  | cons w ws =>
    have hw := hws w List.mem_cons_self
    obtain ⟨hnot, -, -, hcapital, -⟩ := lower_facts hw
    rcases hforms with rfl | rfl
    · have hne : w ≠ w.toUpper := by
        intro heq
        rw [← heq, hnot] at hcapital
        cases hcapital
      simp [isSmall_eq h.head, hw, hne]
    · have hsmall := (caseLaws_of_ascii (toNat_lt_of_isLower hw)).isLower_toUpper
      simp only [List.map_cons, List.head?_cons, Option.any_some, isSmall_eq h.head, hsmall]

/-- Behind a capital small letters stay together, or capitals only. -/
theorem snakeAfter_capital_iff {b : Char} (hb : b.toNat < 128) (hupper : b.isUpper = true) :
    snakeAfter (some b) cs = ws ↔ cs = ws ∨ cs = ws.map Char.toUpper := by
  induction cs generalizing b ws with
  | nil =>
    show [] = ws ↔ _
    cases ws <;> simp
  | cons c cs ih =>
    cases ws with
    | nil => simp [snakeAfter_cons h.head]
    | cons w ws =>
      obtain ⟨hw, hlower⟩ := List.forall_mem_cons.1 hws
      obtain ⟨hnot, -, -, hcapital, -⟩ := lower_facts hw
      rw [snakeAfter_cons_iff h.head hw, startsWord_capital hb hupper]
      constructor
      · rintro ⟨hstart, rfl | rfl, hrest⟩
        · rw [(snakeAfter_small_iff h.tail hlower hw).1 hrest]
          exact .inl rfl
        · have hforms := (ih h.tail hlower h.head hcapital).1 hrest
          rw [(head?_any_isSmall_iff h.tail hlower hforms).1 (hstart hcapital)]
          exact .inr rfl
      · rintro (heq | heq)
        · obtain ⟨rfl, rfl⟩ := List.cons.inj heq
          exact ⟨by simp [hnot], .inl rfl, (snakeAfter_small_iff h.tail hlower hw).2 rfl⟩
        · obtain ⟨rfl, rfl⟩ := List.cons.inj heq
          have hforms : ws.map Char.toUpper = ws ∨ ws.map Char.toUpper = ws.map Char.toUpper :=
            .inr rfl
          exact ⟨fun _ => (head?_any_isSmall_iff h.tail hlower hforms).2 rfl, .inr rfl,
            (ih h.tail hlower h.head hcapital).2 hforms⟩

/-- The names that are a word without underscores in snake case. -/
theorem snakeAfter_none_iff : snakeAfter none cs = ws ↔ cs ∈ Rust.formsOf ws := by
  cases cs with
  | nil =>
    show [] = ws ↔ _
    cases ws <;> simp [Rust.formsOf]
  | cons c cs =>
    cases ws with
    | nil => simp [snakeAfter_cons h.head, Rust.formsOf]
    | cons w ws =>
      obtain ⟨hw, hlower⟩ := List.forall_mem_cons.1 hws
      obtain ⟨hnot, -, -, hcapital, -⟩ := lower_facts hw
      rw [snakeAfter_cons_iff h.head hw]
      have hforms : c :: cs ∈ Rust.formsOf (w :: ws) ↔
          c = w ∧ cs = ws ∨ c = w.toUpper ∧ (cs = ws ∨ cs = ws.map Char.toUpper) := by
        simp [Rust.formsOf, and_or_left]
      rw [hforms]
      constructor
      · rintro ⟨-, rfl | rfl, hrest⟩
        · exact .inl ⟨rfl, (snakeAfter_small_iff h.tail hlower hw).1 hrest⟩
        · exact .inr ⟨rfl, (snakeAfter_capital_iff h.tail hlower h.head hcapital).1 hrest⟩
      · rintro (⟨rfl, hrest⟩ | ⟨rfl, hrest⟩)
        · exact ⟨fun _ => rfl, .inl rfl, (snakeAfter_small_iff h.tail hlower hw).2 hrest⟩
        · exact ⟨fun _ => rfl, .inr rfl,
            (snakeAfter_capital_iff h.tail hlower h.head hcapital).2 hrest⟩

end Forms

end Text

/-! ## 2. Names and identifiers -/

namespace Rust

open Text (pascalCase snakeCase pascalChars snakeAfter letters)

theorem keywords_eq : keywords = strictWords := rfl

theorem escapeKeyword_of_mem {s : String} (h : s ∈ strictWords) : escapeKeyword s = s ++ "_" := by
  rw [escapeKeyword, keywords_eq, if_pos (List.contains_iff_mem.2 h)]

theorem escapeKeyword_of_not_mem {s : String} (h : s ∉ strictWords) : escapeKeyword s = s := by
  rw [escapeKeyword, keywords_eq, if_neg fun hmem => h (List.contains_iff_mem.1 hmem)]

/-! ### Words of the language -/

theorem isAlpha_of_mem_strictWords :
    ∀ word ∈ strictWords, word.toList ≠ [] ∧ word.toList.all Char.isAlpha = true := by
  decide

theorem isLower_of_mem_futureWords :
    ∀ word ∈ futureWords, word.toList ≠ [] ∧ word.toList.all Char.isLower = true := by
  decide

theorem not_mem_futureWords : ∀ word ∈ strictWords, word ∉ futureWords := by
  decide

theorem isWordlike_of_mem_strictWords {word : String} (h : word ∈ strictWords) :
    IsWordlike word := by
  obtain ⟨hne, halpha⟩ := isAlpha_of_mem_strictWords word h
  rw [List.all_eq_true] at halpha
  obtain ⟨c, cs, hlist⟩ := List.exists_cons_of_ne_nil hne
  constructor
  · have hc := halpha c (hlist ▸ List.mem_cons_self)
    simp [hlist, isNameStart, hc]
  · rw [List.all_eq_true]
    intro c hc
    simp [isNameChar, Char.isAlphanum, halpha c hc]

/-- A word of the language has no underscore. -/
theorem escaped_not_mem (s : String) : s ++ "_" ∉ strictWords ∧ s ++ "_" ∉ futureWords := by
  have hmem : '_' ∈ (s ++ "_").toList := by simp
  constructor
  · intro hword
    exact absurd (List.all_eq_true.1 (isAlpha_of_mem_strictWords _ hword).2 _ hmem) (by decide)
  · intro hword
    exact absurd (List.all_eq_true.1 (isLower_of_mem_futureWords _ hword).2 _ hmem) (by decide)

/-- Escaping takes a word of the language out of its words. -/
theorem isIdentifier_escaped {word : String} (h : word ∈ strictWords) :
    IsIdentifier (word ++ "_") := by
  obtain ⟨hhead, hall⟩ := isWordlike_of_mem_strictWords h
  obtain ⟨c, cs, hlist⟩ :=
    List.exists_cons_of_ne_nil (isAlpha_of_mem_strictWords word h).1
  refine ⟨⟨?_, ?_⟩, ?_, escaped_not_mem word⟩
  · rw [String.toList_append, hlist]
    rwa [hlist] at hhead
  · rw [String.toList_append, List.all_append, hall]
    rfl
  · intro heq
    have hlength := congrArg (List.length ∘ String.toList) heq
    simp [hlist] at hlength

theorem escapeKeyword_not_mem (s : String) : escapeKeyword s ∉ strictWords := by
  by_cases hs : s ∈ strictWords
  · rw [escapeKeyword_of_mem hs]
    exact (escaped_not_mem s).1
  · rwa [escapeKeyword_of_not_mem hs]

/-- Only the words that the language uses are taken care of. -/
theorem isIdentifier_escapeKeyword_iff (s : String) :
    IsIdentifier (escapeKeyword s) ↔ IsWordlike s ∧ s ≠ "_" ∧ s ∉ futureWords := by
  by_cases hs : s ∈ strictWords
  · rw [escapeKeyword_of_mem hs]
    refine iff_of_true (isIdentifier_escaped hs)
      ⟨isWordlike_of_mem_strictWords hs, ?_, not_mem_futureWords s hs⟩
    rintro rfl
    exact absurd hs (by decide)
  · rw [escapeKeyword_of_not_mem hs, IsIdentifier, and_iff_right hs]

/-- An escaped word is only taken for the word with an underscore. -/
theorem escapeKeyword_eq_iff (a b : String) :
    escapeKeyword a = escapeKeyword b ↔
      a = b ∨ a ∈ strictWords ∧ b = a ++ "_" ∨ b ∈ strictWords ∧ a = b ++ "_" := by
  by_cases ha : a ∈ strictWords <;> by_cases hb : b ∈ strictWords
  · rw [escapeKeyword_of_mem ha, escapeKeyword_of_mem hb]
    constructor
    · intro heq
      exact .inl ((String.append_left_inj "_").1 heq)
    · rintro (rfl | ⟨-, rfl⟩ | ⟨-, rfl⟩)
      · rfl
      · exact absurd hb (escaped_not_mem a).1
      · exact absurd ha (escaped_not_mem b).1
  · rw [escapeKeyword_of_mem ha, escapeKeyword_of_not_mem hb]
    constructor
    · intro heq
      exact .inr (.inl ⟨ha, heq.symm⟩)
    · rintro (rfl | ⟨-, heq⟩ | ⟨hmem, -⟩)
      · exact absurd ha hb
      · exact heq.symm
      · exact absurd hmem hb
  · rw [escapeKeyword_of_not_mem ha, escapeKeyword_of_mem hb]
    constructor
    · intro heq
      exact .inr (.inr ⟨hb, heq⟩)
    · rintro (rfl | ⟨hmem, -⟩ | ⟨-, heq⟩)
      · exact absurd hb ha
      · exact absurd hmem ha
      · exact heq
  · rw [escapeKeyword_of_not_mem ha, escapeKeyword_of_not_mem hb]
    simp [ha, hb]

theorem caseless_isNameChar : Text.Caseless isNameChar :=
  Text.caseless_of_ascii rfl fun _ hc => (Text.caseLaws_of_ascii hc).isNameChar_toLower

/-- Whether `c` can stand in a dotted name. -/
def isDottedChar (c : Char) : Bool :=
  isNameChar c || c = '.'

theorem caseless_isDottedChar : Text.Caseless isDottedChar := by
  refine Text.caseless_of_ascii rfl fun c hc => ?_
  have hlaws := Text.caseLaws_of_ascii hc
  simp only [isDottedChar, hlaws.isNameChar_toLower, hlaws.toLower_eq_dot]

section Names

variable {name : String} (h : IsName name.toList)

include h

theorem all_isDottedChar_of_isName : name.toList.all isDottedChar = true := by
  obtain ⟨c, cs, hname, hstart⟩ := Token.exists_start_of_isName h
  rw [hname] at h ⊢
  rw [List.all_cons, Bool.and_eq_true, List.all_eq_true]
  constructor
  · rcases hstart with rfl | hstart
    · rfl
    · simp [isDottedChar, Token.isNameChar_of_isNameStart hstart]
  · intro d hd
    rcases Token.mem_of_nameTail (Token.isName_cons_iff.1 h).2 hd with hchar | rfl
    · simp [isDottedChar, hchar]
    · rfl

theorem isAscii_of_isName : Text.IsAscii name.toList := by
  intro c hc
  have hdotted := List.all_eq_true.1 (all_isDottedChar_of_isName h) c hc
  simp only [isDottedChar, isNameChar, Char.isAlphanum, Bool.or_eq_true, decide_eq_true_eq]
    at hdotted
  rcases hdotted with ((halpha | hdigit) | rfl) | rfl
  · exact Token.toNat_lt_of_isNameStart (by simp [isNameStart, halpha])
  · exact Token.toNat_lt_of_isDigit hdigit
  · decide
  · decide

theorem all_isNameChar_iff : name.toList.all isNameChar = true ↔ '.' ∉ name.toList := by
  rw [List.all_eq_true]
  constructor
  · intro hall hdot
    exact absurd (hall _ hdot) (by decide)
  · intro hdot c hc
    have hdotted := List.all_eq_true.1 (all_isDottedChar_of_isName h) c hc
    rw [isDottedChar, Bool.or_eq_true, decide_eq_true_eq] at hdotted
    rcases hdotted with hchar | rfl
    · exact hchar
    · exact absurd hc hdot

/-! ### Types -/

/-- The first character of a name that is no underscore. -/
theorem first_of_dropWhile {c : Char} {cs : List Char}
    (hrest : name.toList.dropWhile (· = '_') = c :: cs) : c ≠ '_' ∧ c.toNat < 128 := by
  constructor
  · have hnot := List.head?_dropWhile_not (· = '_') name.toList
    rw [hrest] at hnot
    exact of_decide_eq_false hnot
  · refine isAscii_of_isName h c (List.dropWhile_subset (· = '_') ?_)
    rw [hrest]
    exact List.mem_cons_self

theorem isWordlike_pascalCase_iff : IsWordlike (pascalCase name) ↔ NamesType name := by
  have hascii := isAscii_of_isName h
  have hhead : (pascalChars name.toList).head?.any isNameStart =
      (name.toList.dropWhile (· = '_')).head?.any Char.isAlpha := by
    rw [Text.head?_pascalChars hascii]
    cases hrest : name.toList.dropWhile (· = '_') with
    | nil => rfl
    | cons c cs =>
      obtain ⟨hne, hc⟩ := first_of_dropWhile h hrest
      rw [List.head?_cons, Option.map_some, Option.any_some, Option.any_some,
        (Text.caseLaws_of_ascii hc).isNameStart_toUpper]
      simp [isNameStart, hne]
  rw [IsWordlike, pascalCase, String.toList_ofList, caseless_isNameChar.all_pascalChars hascii,
    hhead, all_isNameChar_iff h, and_comm]
  rfl

theorem underscore_not_mem_pascalCase : '_' ∉ (pascalCase name).toList := by
  rw [pascalCase, String.toList_ofList]
  intro hmem
  have hletter : '_' ∈ letters name.toList := by
    rw [← Text.pascalChars_toLower (isAscii_of_isName h)]
    exact List.mem_map.2 ⟨'_', hmem, rfl⟩
  obtain ⟨c, hc, hlower⟩ := List.mem_map.1 hletter
  obtain ⟨hc, hne⟩ := List.mem_filter.1 hc
  have hlaws := Text.caseLaws_of_ascii (isAscii_of_isName h c hc)
  exact of_decide_eq_true hne (hlaws.toLower_eq_underscore.1 hlower)

theorem isIdentifier_typeName_iff : IsIdentifier (typeName name) ↔ NamesType name := by
  have hblank : pascalCase name ≠ "_" := by
    intro heq
    exact underscore_not_mem_pascalCase h (by rw [heq]; decide)
  have hfuture : pascalCase name ∉ futureWords := by
    intro hmem
    obtain ⟨hne, hsmall⟩ := isLower_of_mem_futureWords _ hmem
    obtain ⟨d, ds, hlist⟩ := List.exists_cons_of_ne_nil hne
    have hd : d.isLower = true := List.all_eq_true.1 hsmall d (hlist ▸ List.mem_cons_self)
    have hhead := Text.head?_pascalChars (isAscii_of_isName h)
    rw [pascalCase, String.toList_ofList] at hlist
    rw [hlist] at hhead
    cases hrest : name.toList.dropWhile (· = '_') with
    | nil => simp [hrest] at hhead
    | cons c cs =>
      obtain rfl : d = c.toUpper := by simpa [hrest] using hhead
      rw [(Text.caseLaws_of_ascii (first_of_dropWhile h hrest).2).isLower_toUpper] at hd
      cases hd
  rw [typeName, isIdentifier_escapeKeyword_iff, isWordlike_pascalCase_iff h]
  exact and_iff_left ⟨hblank, hfuture⟩

/-! ### Fields -/

theorem isWordlike_snakeCase_iff : IsWordlike (snakeCase name) ↔ '.' ∉ name.toList := by
  have hascii := isAscii_of_isName h
  have hhead : (snakeAfter none name.toList).head?.any isNameStart =
      name.toList.head?.any isNameStart := by
    cases hname : name.toList with
    | nil => rfl
    | cons c cs =>
      rw [hname] at hascii
      rw [Text.snakeAfter_none_cons hascii.head]
      exact (Text.caseLaws_of_ascii hascii.head).isNameStart_toLower
  rw [IsWordlike, snakeCase, String.toList_ofList, caseless_isNameChar.all_snakeAfter none hascii,
    hhead, all_isNameChar_iff h]
  refine and_iff_right_of_imp fun hdot => ?_
  obtain ⟨c, cs, hname, rfl | hstart⟩ := Token.exists_start_of_isName h
  · exact absurd (by simp [hname]) hdot
  · simp [hname, hstart]

theorem snakeCase_eq_underscore_iff : snakeCase name = "_" ↔ name = "_" := by
  constructor
  · intro heq
    have hlist : snakeAfter none name.toList = ['_'] := by
      rw [← String.toList_ofList (l := snakeAfter none name.toList)]
      exact congrArg String.toList heq
    have hascii := isAscii_of_isName h
    cases hname : name.toList with
    | nil =>
      rw [hname] at hlist
      cases hlist
    | cons c cs =>
      rw [hname] at hlist hascii
      rw [Text.snakeAfter_none_cons hascii.head] at hlist
      obtain ⟨hc, hrest⟩ := List.cons.inj hlist
      have hcs : cs = [] := by
        by_contra hne
        exact ModuleFilesLemmas.snakeAfter_ne_nil _ hne hrest
      have hlaws := Text.caseLaws_of_ascii hascii.head
      rw [← String.toList_inj, hname, hcs, hlaws.toLower_eq_underscore.1 hc]
      rfl
  · rintro rfl
    rfl

theorem snakeCase_mem_futureWords_iff :
    snakeCase name ∈ futureWords ↔ ∃ word ∈ futureWords, name.toList ∈ formsOf word.toList := by
  have hforms (word : String) (hword : word ∈ futureWords) :
      snakeCase name = word ↔ name.toList ∈ formsOf word.toList := by
    have hlower := List.all_eq_true.1 (isLower_of_mem_futureWords word hword).2
    rw [← Text.snakeAfter_none_iff (isAscii_of_isName h) hlower, ← String.toList_inj, snakeCase,
      String.toList_ofList]
  constructor
  · intro hmem
    exact ⟨_, hmem, (hforms _ hmem).1 rfl⟩
  · rintro ⟨word, hword, hform⟩
    rw [(hforms word hword).2 hform]
    exact hword

theorem isIdentifier_fieldName_iff : IsIdentifier (fieldName name) ↔ NamesField name := by
  rw [fieldName, isIdentifier_escapeKeyword_iff, isWordlike_snakeCase_iff h, Ne,
    snakeCase_eq_underscore_iff h, snakeCase_mem_futureWords_iff h, NamesField]
  simp only [not_exists, not_and]

/-! ### Characters of identifiers -/

omit h in
theorem all_isDottedChar_escapeKeyword {s : String} (hs : s.toList.all isDottedChar = true) :
    (escapeKeyword s).toList.all isDottedChar = true := by
  rcases ModuleFilesLemmas.escapeKeyword_cases s with heq | ⟨heq, -⟩
  · rw [heq, String.toList_append, List.all_append, hs]
    rfl
  · rw [heq, hs]

theorem all_isDottedChar_typeName : (typeName name).toList.all isDottedChar = true := by
  refine all_isDottedChar_escapeKeyword ?_
  rw [pascalCase, String.toList_ofList,
    caseless_isDottedChar.all_pascalChars (isAscii_of_isName h), all_isDottedChar_of_isName h]

theorem all_isDottedChar_fieldName : (fieldName name).toList.all isDottedChar = true := by
  refine all_isDottedChar_escapeKeyword ?_
  rw [snakeCase, String.toList_ofList,
    caseless_isDottedChar.all_snakeAfter none (isAscii_of_isName h), all_isDottedChar_of_isName h]

end Names

/-! ### The same identifier -/

variable {a b : String}

theorem typeName_eq_iff (ha : IsName a.toList) (hb : IsName b.toList) :
    typeName a = typeName b ↔ pascalCase a = pascalCase b := by
  have hnot {a b : String} (hb : IsName b.toList) : pascalCase b ≠ pascalCase a ++ "_" := by
    intro heq
    exact underscore_not_mem_pascalCase hb (by rw [heq]; simp)
  rw [typeName, typeName, escapeKeyword_eq_iff]
  simp only [hnot ha, hnot hb, and_false, or_false]

theorem fieldName_eq_iff (a b : String) :
    fieldName a = fieldName b ↔ snakeCase a = snakeCase b ∨
      snakeCase a ∈ strictWords ∧ snakeCase b = snakeCase a ++ "_" ∨
      snakeCase b ∈ strictWords ∧ snakeCase a = snakeCase b ++ "_" :=
  escapeKeyword_eq_iff _ _

/-- Types get the same identifier only from names that have the same letters. -/
theorem letters_of_typeName_eq (ha : IsName a.toList) (hb : IsName b.toList)
    (heq : typeName a = typeName b) : letters a.toList = letters b.toList := by
  have hpascal : pascalChars a.toList = pascalChars b.toList :=
    String.ofList_injective ((typeName_eq_iff ha hb).1 heq)
  rw [← Text.pascalChars_toLower (isAscii_of_isName ha), hpascal,
    Text.pascalChars_toLower (isAscii_of_isName hb)]

/-- Fields get the same identifier only from names that have the same letters. -/
theorem letters_of_fieldName_eq (ha : IsName a.toList) (hb : IsName b.toList)
    (heq : fieldName a = fieldName b) : letters a.toList = letters b.toList := by
  have hletters {name : String} (h : IsName name.toList) :
      letters (snakeCase name).toList = letters name.toList := by
    rw [snakeCase, String.toList_ofList, Text.letters_snakeAfter none (isAscii_of_isName h)]
  have hescaped (s : String) : letters (s ++ "_").toList = letters s.toList := by
    simp [letters]
  rw [← hletters ha, ← hletters hb]
  rcases (fieldName_eq_iff a b).1 heq with hsnake | ⟨-, hsnake⟩ | ⟨-, hsnake⟩
  · rw [hsnake]
  · rw [hsnake, hescaped]
  · rw [hsnake, hescaped]

end Rust

end SchemaGen
