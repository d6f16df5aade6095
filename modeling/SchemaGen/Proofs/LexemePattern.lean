import SchemaGen.Proofs.Words

/-!
# The pattern of lexemes

Lexemes can also be given by one regular expression, in which the classes of lexemes are the
alternatives. It is matched by backtracking: of several ways to match, the first one counts, where
an earlier alternative comes before a later one, a repetition tries to go on before it stops, and a
lazy repetition tries to stop before it goes on. A match can so depend on all of the text ahead,
while the functions that measure lexemes look at each character once.

The main result is `rest?_lexeme`: both take the same characters from the front of every text.
-/

namespace SchemaGen.Token

open Text (isBlank isDigit isWord)

/-! ## Definitions -/

/-- A place in a text. -/
structure Place where
  /-- The character just before the place, if there is one. -/
  before : Option Char
  /-- The text behind the place. -/
  ahead : List Char

/-- A regular expression. -/
inductive Pattern where
  /-- Nothing. -/
  | empty
  /-- One character of a class. -/
  | char (p : Char → Bool)
  /-- A word boundary: of the characters around the place, just one belongs to a word. -/
  | edge
  | seq (a b : Pattern)
  /-- The pattern `a`, or else `b`. -/
  | alt (a b : Pattern)
  /-- Repetitions of `a`, as many as possible if `greedy` is set, else as few as possible. -/
  | many (greedy : Bool) (a : Pattern)

namespace Pattern

variable {α : Type}

/-- Goes on with `k` behind repetitions of a step, at most `n`. A repetition has to take a
character. -/
def repeated (greedy : Bool) (step : Place → (Place → Option α) → Option α)
    (k : Place → Option α) : (n : Nat) → Place → Option α
  | 0, s => k s
  | n + 1, s =>
    let more := step s fun t =>
      if t.ahead.length < s.ahead.length then repeated greedy step k n t else none
    if greedy then more.or (k s) else (k s).or more

/-- Matches a pattern at a place and goes on with `k` behind the match. Where `k` fails, the next way
to match is tried. There are no more repetitions than characters ahead. -/
def attempt : Pattern → Place → (Place → Option α) → Option α
  | empty, s, k => k s
  | char p, s, k =>
    match s.ahead with
    | [] => none
    | c :: cs => if p c then k ⟨some c, cs⟩ else none
  | edge, s, k => if s.before.any isWord = s.ahead.head?.any isWord then none else k s
  | seq a b, s, k => a.attempt s fun t => b.attempt t k
  | alt a b, s, k => (a.attempt s k).or (b.attempt s k)
  | many greedy a, s, k => repeated greedy (fun s k => a.attempt s k) k (s.ahead.length + 1) s

/-- What is left of the text `cs` behind the match at its front, where `before` is the character
before the text. -/
def rest? (p : Pattern) (before : Option Char) (cs : List Char) : Option (List Char) :=
  p.attempt ⟨before, cs⟩ fun t => some t.ahead

/-- The character `c`. -/
def just (c : Char) : Pattern :=
  char (· = c)

/-- Any character. -/
def any : Pattern :=
  char fun _ => true

/-- A pattern or nothing. -/
def opt (a : Pattern) : Pattern :=
  alt a empty

/-- As many repetitions as possible. -/
def star (a : Pattern) : Pattern :=
  many true a

/-- At least one repetition, and as many as possible. -/
def plus (a : Pattern) : Pattern :=
  seq a (star a)

/-! ### The alternatives -/

def blockComment : Pattern :=
  seq (just '/') (seq (just '*') (seq (many false any) (seq (just '*') (just '/'))))

def lineComment : Pattern :=
  seq (just '/') (seq (just '/') (star (char (· ≠ '\n'))))

/-- A character of a string: a plain one, or a backslash with any character behind it. -/
def stringChar : Pattern :=
  alt (char fun c => c ≠ '"' && c ≠ '\\' && c ≠ '\n') (seq (just '\\') any)

def string : Pattern :=
  seq (just '"') (seq (star stringChar) (just '"'))

def integer : Pattern :=
  seq (opt (just '-')) (seq (plus (char isDigit)) edge)

/-- A name without dots, from its second character on. -/
def nameChars : Pattern :=
  star (char isNameChar)

/-- A dot and a name without dots. -/
def dottedName : Pattern :=
  seq (just '.') (seq (char isNameStart) nameChars)

def name : Pattern :=
  seq (opt (just '.')) (seq (char isNameStart) (seq nameChars (star dottedName)))

def symbol : Pattern :=
  char isSymbol

def blanks : Pattern :=
  plus (char isBlank)

/-- A lexeme. -/
def lexeme : Pattern :=
  alt blockComment <| alt lineComment <| alt string <| alt integer <| alt name <| alt symbol blanks

/-! ## Ways to match -/

variable (p : Char → Bool) (before : Option Char)

@[simp]
theorem attempt_char_nil (k : Place → Option α) : (char p).attempt ⟨before, []⟩ k = none := rfl

@[simp]
theorem attempt_char_cons (c : Char) (cs : List Char) (k : Place → Option α) :
    (char p).attempt ⟨before, c :: cs⟩ k = if p c then k ⟨some c, cs⟩ else none := rfl

@[simp]
theorem attempt_seq (a b : Pattern) (s : Place) (k : Place → Option α) :
    (seq a b).attempt s k = a.attempt s fun t => b.attempt t k := rfl

@[simp]
theorem attempt_alt (a b : Pattern) (s : Place) (k : Place → Option α) :
    (alt a b).attempt s k = (a.attempt s k).or (b.attempt s k) := rfl

@[simp]
theorem attempt_empty (s : Place) (k : Place → Option α) : empty.attempt s k = k s := rfl

/-- More repetitions than there are characters make no difference. -/
theorem repeated_eq (greedy : Bool) (step : Place → (Place → Option α) → Option α)
    (k : Place → Option α) {n m : Nat} {s : Place} (hn : s.ahead.length < n)
    (hm : s.ahead.length < m) : repeated greedy step k n s = repeated greedy step k m s := by
  induction n generalizing m s with
  | zero => omega
  | succ n ih =>
    obtain ⟨m, rfl⟩ := Nat.exists_eq_add_one.2 (Nat.zero_lt_of_lt hm)
    have hmore : (fun t : Place => if t.ahead.length < s.ahead.length
          then repeated greedy step k n t else none) =
        fun t => if t.ahead.length < s.ahead.length then repeated greedy step k m t else none := by
      funext t
      split
      · next hshorter => exact ih (by omega) (by omega)
      · rfl
    rw [repeated, repeated, hmore]

theorem attempt_many (greedy : Bool) (a : Pattern) (s : Place) (k : Place → Option α) :
    (many greedy a).attempt s k =
      let more := a.attempt s fun t =>
        if t.ahead.length < s.ahead.length then (many greedy a).attempt t k else none
      if greedy then more.or (k s) else (k s).or more := by
  have hmore : (fun t : Place => if t.ahead.length < s.ahead.length
        then repeated greedy (fun s k => a.attempt s k) k s.ahead.length t else none) =
      fun t => if t.ahead.length < s.ahead.length then (many greedy a).attempt t k else none := by
    funext t
    split
    · next hshorter => exact repeated_eq _ _ _ hshorter (Nat.lt_succ_self _)
    · rfl
  rw [attempt, repeated, hmore]

theorem attempt_star (a : Pattern) (s : Place) (k : Place → Option α) :
    (star a).attempt s k =
      (a.attempt s fun t =>
        if t.ahead.length < s.ahead.length then (star a).attempt t k else none).or (k s) :=
  attempt_many true a s k

theorem attempt_lazy (a : Pattern) (s : Place) (k : Place → Option α) :
    (many false a).attempt s k =
      (k s).or (a.attempt s fun t =>
        if t.ahead.length < s.ahead.length then (many false a).attempt t k else none) :=
  attempt_many false a s k

/-- A match leaves an end of the text, so only what `k` does there counts. -/
theorem attempt_congr (p : Pattern) {s : Place} {k k' : Place → Option α}
    (h : ∀ t : Place, t.ahead <:+ s.ahead → k t = k' t) : p.attempt s k = p.attempt s k' := by
  induction p generalizing s k k' with
  | empty => exact h s List.suffix_rfl
  | char p =>
    obtain ⟨before, cs⟩ := s
    cases cs with
    | nil => rfl
    | cons c cs => rw [attempt_char_cons, attempt_char_cons, h _ (List.suffix_cons c cs)]
  | edge => rw [attempt, attempt, h s List.suffix_rfl]
  | seq a b iha ihb => exact iha fun t ht => ihb fun u hu => h u (hu.trans ht)
  | alt a b iha ihb => rw [attempt_alt, attempt_alt, iha h, ihb h]
  | many greedy a ih =>
    induction hn : s.ahead.length using Nat.strongRecOn generalizing s with
    | ind n ihn =>
      subst hn
      have hmore : (a.attempt s fun t => if t.ahead.length < s.ahead.length
            then (many greedy a).attempt t k else none) =
          a.attempt s fun t => if t.ahead.length < s.ahead.length
            then (many greedy a).attempt t k' else none := by
        refine ih fun t ht => ?_
        split
        · next hshorter => exact ihn _ hshorter (fun u hu => h u (hu.trans ht)) rfl
        · rfl
      rw [attempt_many, attempt_many, hmore, h s List.suffix_rfl]

/-! ### Runs of a class -/

@[simp]
theorem attempt_star_nil (k : Place → Option α) :
    (star (char p)).attempt ⟨before, []⟩ k = k ⟨before, []⟩ := by
  rw [attempt_star, attempt_char_nil, Option.none_or]

theorem attempt_star_cons (c : Char) (cs : List Char) (k : Place → Option α) :
    (star (char p)).attempt ⟨before, c :: cs⟩ k =
      if p c then ((star (char p)).attempt ⟨some c, cs⟩ k).or (k ⟨before, c :: cs⟩)
      else k ⟨before, c :: cs⟩ := by
  rw [attempt_star, attempt_char_cons]
  cases p c <;> simp

/-- A run is not cut short if nothing can fail behind it. -/
theorem rest?_star (cs : List Char) : (star (char p)).rest? before cs = some (cs.dropWhile p) := by
  induction cs generalizing before with
  | nil => exact attempt_star_nil p before _
  | cons c cs ih =>
    rw [rest?, attempt_star_cons]
    cases hc : p c with
    | false => simp [hc]
    | true =>
      rw [if_pos rfl, show (star (char p)).attempt ⟨some c, cs⟩ _ = _ from ih (some c)]
      simp [hc]

theorem rest?_plus (cs : List Char) :
    (plus (char p)).rest? before cs = if cs.head?.any p then some (cs.dropWhile p) else none := by
  cases cs with
  | nil => rfl
  | cons c cs =>
    rw [rest?, plus, attempt_seq, attempt_char_cons]
    cases hc : p c with
    | false => simp [hc]
    | true =>
      rw [if_pos rfl, show (star (char p)).attempt ⟨some c, cs⟩ _ = _ from rest?_star p (some c) cs]
      simp [hc]

/-! ## The alternatives -/

variable (cs : List Char)

theorem rest?_blockEnd :
    (seq (many false any) (seq (just '*') (just '/'))).rest? before cs =
      (blockEnd? cs).map cs.drop := by
  induction cs generalizing before with
  | nil =>
    rw [rest?, attempt_seq, attempt_lazy]
    rfl
  | cons c cs ih =>
    have hmore : (any.attempt ⟨before, c :: cs⟩ fun t => if t.ahead.length < (c :: cs).length
        then (many false any).attempt t fun t =>
          (seq (just '*') (just '/')).attempt t fun t => some t.ahead
        else none) = (blockEnd? cs).map cs.drop := by
      rw [any, attempt_char_cons, if_pos rfl]
      exact (if_pos (Nat.lt_succ_self _)).trans (ih (some c))
    have hnow : ((seq (just '*') (just '/')).attempt ⟨before, c :: cs⟩ fun t => some t.ahead) =
        if c = '*' ∧ cs.head? = some '/' then some cs.tail else none := by
      rw [just, just, attempt_seq, attempt_char_cons]
      cases cs with
      | nil => simp
      | cons d cs => by_cases hc : c = '*' <;> by_cases hd : d = '/' <;> simp [hc, hd]
    rw [rest?, attempt_seq, attempt_lazy, hmore, hnow, blockEnd?]
    split
    · simp
    · simp [Function.comp_def]

theorem rest?_blockComment :
    blockComment.rest? before cs = (blockCommentLength? cs).map cs.drop := by
  rcases cs with _ | ⟨c, _ | ⟨d, cs⟩⟩
  · rfl
  · by_cases hc : c = '/' <;> simp [rest?, blockComment, just, hc, blockCommentLength?]
  · have hrest := rest?_blockEnd (some d) cs
    rw [rest?, attempt_seq] at hrest
    by_cases hc : c = '/' <;> by_cases hd : d = '*' <;>
      simp_all [rest?, blockComment, just, blockCommentLength?, Function.comp_def]

theorem drop_length_takeWhile (p : Char → Bool) (cs : List Char) :
    cs.drop (cs.takeWhile p).length = cs.dropWhile p := by
  induction cs with
  | nil => rfl
  | cons c cs ih => cases hc : p c <;> simp [hc, ih]

theorem rest?_lineComment : lineComment.rest? before cs = (lineCommentLength? cs).map cs.drop := by
  rcases cs with _ | ⟨c, _ | ⟨d, cs⟩⟩
  · rfl
  · by_cases hc : c = '/' <;> simp [rest?, lineComment, just, hc, lineCommentLength?]
  · have hrest := rest?_star (· ≠ '\n') (some d) cs
    rw [rest?] at hrest
    by_cases hc : c = '/' <;> by_cases hd : d = '/' <;>
      simp_all [rest?, lineComment, just, lineCommentLength?, Nat.add_comm 2,
        drop_length_takeWhile]

/-! ### Strings -/

theorem rest?_stringEnd_nil : (seq (star stringChar) (just '"')).rest? before [] = none := by
  rw [rest?, attempt_seq, attempt_star]
  rfl

/-- How a string goes on from its next character. -/
theorem rest?_stringEnd_cons (c : Char) (cs : List Char) :
    (seq (star stringChar) (just '"')).rest? before (c :: cs) =
      if c = '"' then some cs
      else if c = '\n' then none
      else if c = '\\' then
        cs.head?.bind fun d => (seq (star stringChar) (just '"')).rest? (some d) cs.tail
      else (seq (star stringChar) (just '"')).rest? (some c) cs := by
  rw [rest?, attempt_seq, attempt_star]
  by_cases hquote : c = '"'
  · simp [hquote, stringChar, just]
  by_cases hnewline : c = '\n'
  · simp [hnewline, stringChar, just]
  by_cases hbackslash : c = '\\'
  · cases cs with
    | nil => simp [hbackslash, stringChar, just, any]
    | cons d cs => simp [hbackslash, stringChar, just, any, rest?, Nat.add_assoc]
  · simp [hquote, hnewline, hbackslash, stringChar, just, any, rest?]

/-- A string goes on as long as it can, and it can end at no place before that. -/
theorem rest?_stringEnd :
    (seq (star stringChar) (just '"')).rest? before cs = (stringEnd? cs).map cs.drop := by
  fun_induction stringEnd? cs generalizing before with
  | case1 => exact rest?_stringEnd_nil before
  | case2 => simp [rest?_stringEnd_cons]
  | case3 c hquote => simp [rest?_stringEnd_cons, rest?_stringEnd_nil, hquote]
  | case4 => simp [rest?_stringEnd_cons]
  | case5 d cs hquote => simp [rest?_stringEnd_cons]
  | case6 d cs hquote hnewline ih => simp [rest?_stringEnd_cons, ih, Function.comp_def]
  | case7 c d cs hquote hnewline hbackslash ih =>
    simp [rest?_stringEnd_cons, hquote, hnewline, hbackslash, ih, Function.comp_def]

theorem rest?_string : string.rest? before cs = (stringLength? cs).map cs.drop := by
  cases cs with
  | nil => rfl
  | cons c cs =>
    have hrest := rest?_stringEnd (some c) cs
    rw [rest?] at hrest
    by_cases hc : c = '"'
    · simp_all [rest?, string, just, stringLength?, Function.comp_def]
    · simp [rest?, string, just, stringLength?, hc]

/-! ### Integers -/

/-- Whether each of the ranges lies in one of the table, where both are in ascending order. -/
def covers : (table ranges : List (Nat × Nat)) → Bool
  | [], ranges => ranges.isEmpty
  | t :: table, ranges => covers table (ranges.dropWhile fun r => t.1 ≤ r.1 && r.2 ≤ t.2)

theorem exists_of_covers {table ranges : List (Nat × Nat)} (h : covers table ranges = true)
    {r : Nat × Nat} (hr : r ∈ ranges) : ∃ t ∈ table, t.1 ≤ r.1 ∧ r.2 ≤ t.2 := by
  induction table generalizing ranges with
  | nil =>
    rw [List.isEmpty_iff.1 h] at hr
    cases hr
  | cons t table ih =>
    rw [← List.takeWhile_append_dropWhile (p := fun r => t.1 ≤ r.1 && r.2 ≤ t.2) (l := ranges),
      List.mem_append] at hr
    rcases hr with hr | hr
    · have hin := List.all_eq_true.1 List.all_takeWhile r hr
      exact ⟨t, List.mem_cons_self, by simpa using hin⟩
    · obtain ⟨t', ht', hin⟩ := ih h hr
      exact ⟨t', List.mem_cons_of_mem _ ht', hin⟩

theorem inRanges_of_covers {table ranges : List (Nat × Nat)} (h : covers table ranges = true)
    {c : Char} (hc : Text.inRanges ranges c = true) : Text.inRanges table c = true := by
  obtain ⟨r, hr, hin⟩ := List.any_eq_true.1 hc
  obtain ⟨t, ht, hfirst, hlast⟩ := exists_of_covers h hr
  refine List.any_eq_true.2 ⟨t, ht, ?_⟩
  simp only [Bool.and_eq_true, decide_eq_true_eq] at hin ⊢
  omega

theorem isWord_of_isDigit {c : Char} (h : isDigit c = true) : isWord c = true := by
  unfold isDigit at h
  unfold isWord
  split
  · next hascii =>
    rw [if_pos hascii] at h
    simp [Char.isAlphanum, h]
  · next hascii =>
    rw [if_neg hascii] at h
    exact inRanges_of_covers (by decide +kernel) h

/-- Behind a word character there is an edge where the word ends. -/
theorem attempt_edge {c : Char} (hc : isWord c = true) (cs : List Char) (k : Place → Option α) :
    edge.attempt ⟨some c, cs⟩ k = if cs.head?.any isWord then none else k ⟨some c, cs⟩ := by
  rw [attempt, Option.any_some, hc]
  cases cs.head?.any isWord <;> rfl

/-- Behind a digit, a run of digits goes on to its end: inside it there is no edge. -/
theorem rest?_moreDigits {c : Char} (hc : isDigit c = true) (cs : List Char) :
    (seq (star (char isDigit)) edge).rest? (some c) cs =
      if (cs.dropWhile isDigit).head?.any isWord then none else some (cs.dropWhile isDigit) := by
  induction cs generalizing c with
  | nil =>
    rw [rest?, attempt_seq, attempt_star_nil, attempt_edge (isWord_of_isDigit hc)]
    rfl
  | cons d cs ih =>
    rw [rest?, attempt_seq, attempt_star_cons, attempt_edge (isWord_of_isDigit hc)]
    cases hd : isDigit d with
    | false =>
      rw [List.dropWhile_cons_of_neg (by simp [hd])]
      rfl
    | true =>
      have hrest := ih hd
      rw [rest?, attempt_seq] at hrest
      rw [if_pos rfl, hrest]
      simp [isWord_of_isDigit hd, hd]

theorem rest?_digits :
    (seq (plus (char isDigit)) edge).rest? before cs = (digitsLength? cs).map cs.drop := by
  cases cs with
  | nil => rfl
  | cons c cs =>
    cases hc : isDigit c with
    | false => simp [rest?, plus, digitsLength?, hc]
    | true =>
      have hrest := rest?_moreDigits hc cs
      rw [rest?, attempt_seq] at hrest
      simp only [rest?, plus, attempt_seq, attempt_char_cons, hc, if_true, hrest, digitsLength?,
        List.takeWhile_cons_of_pos, List.length_cons, List.drop_succ_cons, drop_length_takeWhile]
      split <;> simp [drop_length_takeWhile]

theorem rest?_integer : integer.rest? before cs = (integerLength? cs).map cs.drop := by
  cases cs with
  | nil => rfl
  | cons c cs =>
    have hunsigned := rest?_digits before (c :: cs)
    have hsigned := rest?_digits (some c) cs
    rw [rest?] at hunsigned hsigned
    rw [rest?, integer, attempt_seq, opt, attempt_alt, attempt_empty, hunsigned, just,
      attempt_char_cons, integerLength?]
    by_cases hc : c = '-'
    · subst hc
      rw [digitsLength?_of_not_digit (by decide), if_pos rfl, if_pos (by decide), hsigned,
        Option.map_none, Option.or_none, Option.map_map]
      rfl
    · simp [hc]

/-! ### Names -/

/-- How a name goes on from its next character. -/
theorem rest?_nameTail_cons (c : Char) (cs : List Char) :
    (seq nameChars (star dottedName)).rest? before (c :: cs) =
      if isNameChar c then
        ((seq nameChars (star dottedName)).rest? (some c) cs).or
          ((star dottedName).rest? before (c :: cs))
      else (star dottedName).rest? before (c :: cs) := by
  rw [rest?, attempt_seq, nameChars, attempt_star_cons]
  rfl

theorem attempt_dottedName (c : Char) (cs : List Char) (k : Place → Option α) :
    dottedName.attempt ⟨before, c :: cs⟩ k =
      if c = '.' ∧ cs.head?.any isNameStart then nameChars.attempt ⟨cs.head?, cs.tail⟩ k
      else none := by
  rcases cs with _ | ⟨d, cs⟩
  · by_cases hc : c = '.' <;> simp [dottedName, just, hc]
  · by_cases hc : c = '.' <;> simp [dottedName, just, hc]

/-- A dot with the start of a name behind it lets a name go on. -/
theorem rest?_dotted_cons (c : Char) (cs : List Char) :
    (star dottedName).rest? before (c :: cs) =
      if c = '.' ∧ cs.head?.any isNameStart then
        ((seq nameChars (star dottedName)).rest? cs.head? cs.tail).or (some (c :: cs))
      else some (c :: cs) := by
  rw [rest?, attempt_star, attempt_dottedName]
  split
  · -- Every place that the name can go on from is behind the dot.
    congr 1
    refine attempt_congr nameChars fun t ht => if_pos ?_
    have hle := ht.length_le
    simp only [List.length_tail, List.length_cons] at hle ⊢
    omega
  · rfl

/-- Behind its first character a name goes on as long as it can. -/
theorem rest?_nameTail :
    (seq nameChars (star dottedName)).rest? before cs = some (cs.drop (nameTail cs)) := by
  induction hn : cs.length using Nat.strongRecOn generalizing before cs with
  | ind n ih =>
    subst hn
    cases cs with
    | nil =>
      rw [rest?, attempt_seq, nameChars, attempt_star_nil, attempt_star]
      rfl
    | cons c cs =>
      rw [rest?_nameTail_cons, rest?_dotted_cons]
      by_cases hchar : isNameChar c = true
      · rw [if_pos hchar, ih _ (by simp) (some c) cs rfl, nameTail_of_isNameChar hchar, Nat.add_comm]
        rfl
      rw [if_neg hchar]
      by_cases hdot : c = '.' ∧ cs.head?.any isNameStart = true
      · have hshorter : cs.tail.length < (c :: cs).length := by
          rw [List.length_tail, List.length_cons]
          omega
        rw [if_pos hdot, ih _ hshorter cs.head? cs.tail rfl]
        obtain ⟨rfl, hnext⟩ := hdot
        obtain ⟨d, cs, rfl⟩ : ∃ d cs', cs = d :: cs' := by
          cases cs with
          | nil => cases hnext
          | cons d cs => exact ⟨d, cs, rfl⟩
        rw [nameTail_dot hnext, nameTail_of_isNameChar (isNameChar_of_isNameStart hnext)]
        simp [Nat.add_comm 1]
      · rw [if_neg hdot, nameTail, if_neg hchar, if_neg hdot]
        rfl

/-- A name without a dot at its front. -/
theorem rest?_nameStart :
    (seq (char isNameStart) (seq nameChars (star dottedName))).rest? before cs =
      if cs.head?.any isNameStart then some (cs.drop (nameTail cs)) else none := by
  cases cs with
  | nil => rfl
  | cons c cs =>
    rw [rest?, attempt_seq, attempt_char_cons]
    cases hc : isNameStart c with
    | false => simp [hc]
    | true =>
      have htail := rest?_nameTail (some c) cs
      rw [rest?] at htail
      rw [if_pos rfl, htail, nameTail_of_isNameChar (isNameChar_of_isNameStart hc)]
      simp [hc, Nat.add_comm 1]

theorem rest?_name : name.rest? before cs = (nameLength? cs).map cs.drop := by
  cases cs with
  | nil => rfl
  | cons c cs =>
    have hplain := rest?_nameStart before (c :: cs)
    have hdotted := rest?_nameStart (some c) cs
    rw [rest?] at hplain hdotted
    rw [rest?, name, attempt_seq, opt, attempt_alt, attempt_empty, hplain, just,
      attempt_char_cons, nameLength?]
    by_cases hdot : c = '.'
    · subst hdot
      have hnot : isNameStart '.' = false := by decide
      rw [if_pos (by decide), hdotted]
      cases hnext : cs.head?.any isNameStart <;> simp [hnot, Nat.add_comm 1]
    · cases hc : isNameStart c with
      | false => simp [hdot, hc]
      | true =>
        have htail := nameTail_of_isNameChar (isNameChar_of_isNameStart hc) cs
        simp [hdot, hc, htail]

/-! ### Symbols and blanks -/

theorem rest?_symbol : symbol.rest? before cs = (symbolLength? cs).map cs.drop := by
  cases cs with
  | nil => rfl
  | cons c cs =>
    rw [rest?, symbol, attempt_char_cons, symbolLength?]
    cases isSymbol c <;> rfl

theorem rest?_blanks : blanks.rest? before cs = (blanksLength? cs).map cs.drop := by
  rw [blanks, rest?_plus, blanksLength?]
  cases cs with
  | nil => rfl
  | cons c cs => cases hc : isBlank c <;> simp [hc, drop_length_takeWhile]

/-! ## The pattern -/

/-- The pattern matches just where a lexeme starts, and it takes the lexeme. -/
theorem rest?_lexeme : lexeme.rest? before cs = (lexemeLength? cs).map cs.drop := by
  simp only [lexemeLength?, Option.orElse_eq_orElse, Option.orElse_eq_or, Option.map_or,
    ← rest?_blockComment before, ← rest?_lineComment before, ← rest?_string before,
    ← rest?_integer before, ← rest?_name before, ← rest?_symbol before, ← rest?_blanks before]
  rfl

end Pattern

end SchemaGen.Token
