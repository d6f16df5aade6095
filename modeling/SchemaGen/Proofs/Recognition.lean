import SchemaGen.Proofs.Filling
import SchemaGen.Proofs.Grammar
import SchemaGen.Proofs.Tokens

/-!
# Readers and what they recognize

`Recognizes p G` says that the reader `p` reads just what the phrases `G` say: at tokens `ts` it
reads `a` and stops before `rest` if and only if `G ts a rest`. So what a reader refuses is also
said. Readers that are put together from others recognize what the parts recognize put together, and
there is one lemma for each way of doing that. A reader may look at the line of the token before it,
but only directly behind a symbol, and this has a lemma of its own (`Recognizes.expectBehind`).
-/

namespace SchemaGen.Document

open Grammar
open Token (Scanned)

variable {α β : Type}

/-- `p` reads `a` at the cursor `c` and stops before `rest`. -/
def Yields (p : Parser α) (c : Cursor) (a : α) (rest : List Token) : Prop :=
  ∃ line, p c = .ok (a, ⟨rest, c.last, line⟩)

/-- At the tokens of a text, `p` reads just the phrases `G`. -/
structure Recognizes (p : Parser α) (G : List Token → α → List Token → Prop) : Prop where
  last : ∀ {c a c'}, p c = .ok (a, c') → c'.last = c.last
  scanned : ∀ {ts a rest}, Scanned ts → G ts a rest → Scanned rest
  yields : ∀ {c a rest}, Scanned c.ahead → (Yields p c a rest ↔ G c.ahead a rest)

/-! ## Putting readers together -/

theorem recognizes_pure (a : α) :
    Recognizes (pure a) fun ts b rest => b = a ∧ rest = ts where
  last := by
    rintro c _ _ ⟨⟩
    rfl
  scanned := by
    rintro ts _ _ hts ⟨-, rfl⟩
    exact hts
  yields := by
    intro c b rest _
    constructor
    · rintro ⟨line, h⟩
      obtain ⟨rfl, hrest⟩ := Prod.mk.inj (Except.ok.inj h)
      exact ⟨rfl, congrArg Cursor.ahead hrest.symm⟩
    · rintro ⟨rfl, rfl⟩
      exact ⟨c.line, rfl⟩

variable {x : Parser α} {G : List Token → α → List Token → Prop} {y : Parser α}
  {H : List Token → α → List Token → Prop} {w : String} {c c' : Cursor} {W : Token → Prop}
  {rest : List Token}

theorem Recognizes.bind {f : α → Parser β} {H : α → List Token → β → List Token → Prop}
    (hx : Recognizes x G) (hf : ∀ a, Recognizes (f a) (H a)) :
    Recognizes (x >>= f) fun ts b rest => ∃ a middle, G ts a middle ∧ H a middle b rest where
  last h := by
    obtain ⟨⟨a, c₁⟩, hfirst, hsecond⟩ := FillingLemmas.bind_eq_ok.1 h
    exact ((hf a).last hsecond).trans (hx.last hfirst)
  scanned := by
    rintro ts b rest hts ⟨a, middle, hG, hH⟩
    exact (hf a).scanned (hx.scanned hts hG) hH
  yields := by
    intro c b rest hc
    constructor
    · rintro ⟨line, h⟩
      obtain ⟨⟨a, ⟨middle, last, line₁⟩⟩, hfirst, hsecond⟩ := FillingLemmas.bind_eq_ok.1 h
      obtain rfl : last = c.last := hx.last hfirst
      have hG := (hx.yields hc).1 ⟨line₁, hfirst⟩
      have hmiddle := hx.scanned hc hG
      exact ⟨a, middle, hG,
        ((hf a).yields (c := ⟨middle, c.last, line₁⟩) hmiddle).1 ⟨line, hsecond⟩⟩
    · rintro ⟨a, middle, hG, hH⟩
      obtain ⟨line₁, hfirst⟩ := (hx.yields hc).2 hG
      have hmiddle := hx.scanned hc hG
      obtain ⟨line, hsecond⟩ :=
        ((hf a).yields (c := ⟨middle, c.last, line₁⟩) hmiddle).2 hH
      exact ⟨line, FillingLemmas.bind_eq_ok.2 ⟨(a, _), hfirst, hsecond⟩⟩

theorem Recognizes.congr {p : Parser α} {G' : List Token → α → List Token → Prop}
    (h : Recognizes p G) (hG : ∀ ts a rest, Scanned ts → (G ts a rest ↔ G' ts a rest)) :
    Recognizes p G' where
  last := h.last
  scanned hts hG' := h.scanned hts ((hG _ _ _ hts).2 hG')
  yields hc := (h.yields hc).trans (hG _ _ _ hc)

theorem recognizes_failAt (t : Token) (cause : SyntaxCause) :
    Recognizes (failAt t cause : Parser α) fun _ _ _ => False where
  last := by rintro c _ _ ⟨⟩
  scanned _ := False.elim
  yields := by
    intro c a rest _
    constructor
    · rintro ⟨line, ⟨⟩⟩
    · exact False.elim

theorem Recognizes.ite {p : Prop} [Decidable p] (hx : Recognizes x G) (hy : Recognizes y H) :
    Recognizes (if p then x else y) fun ts a rest => p ∧ G ts a rest ∨ ¬ p ∧ H ts a rest := by
  by_cases hp : p
  · rw [if_pos hp]
    exact hx.congr fun ts a rest _ => by simp [hp]
  · rw [if_neg hp]
    exact hy.congr fun ts a rest _ => by simp [hp]

theorem recognizes_peek : Recognizes peek fun ts t rest => ts.head? = some t ∧ rest = ts where
  last := by
    rintro c _ _ ⟨⟩
    rfl
  scanned := by
    rintro ts t _ hts ⟨-, rfl⟩
    exact hts
  yields := by
    rintro ⟨ts, last, line⟩ t rest hts
    obtain ⟨t', ts', rfl⟩ := List.exists_cons_of_ne_nil hts.ne_nil
    constructor
    · rintro ⟨_, ⟨⟩⟩
      exact ⟨rfl, rfl⟩
    · rintro ⟨⟨⟩, rfl⟩
      exact ⟨line, rfl⟩

/-! ## Single tokens -/

/-- In the tokens of a text, the word `w` is written just by the tokens of which `W` holds. -/
def Spells (w : String) (W : Token → Prop) : Prop :=
  ∀ t ts, Scanned (t :: ts) → (t.is w = true ↔ W t) ∧ (W t → Scanned ts)

theorem is_iff_of_isLexeme (hstring : Token.kindOf w.toList ≠ .string)
    (hcomment : Token.kindOf w.toList ≠ .comment) {t : Token} (ht : t.IsLexeme) :
    t.is w = true ↔ t.kind = Token.kindOf w.toList ∧ t.text = w := by
  constructor
  · intro his
    obtain rfl : t.text = w := by simpa [Token.is] using (Bool.and_eq_true_iff.1 his).2
    exact ⟨ht.kind, rfl⟩
  · rintro ⟨hkind, htext⟩
    simp [Token.is, hkind, htext, hstring, hcomment]

theorem spells_of_kind (hne : w ≠ "") (hstring : Token.kindOf w.toList ≠ .string)
    (hcomment : Token.kindOf w.toList ≠ .comment) :
    Spells w fun t => t.kind = Token.kindOf w.toList ∧ t.text = w := by
  intro t ts hts
  cases hts with
  | last hend htext =>
    have hkind : t.kind ≠ Token.kindOf w.toList := by
      rw [hend]
      exact (Token.kindOf_ne_endOfFile _).symm
    have htext' : t.text ≠ w := htext ▸ hne.symm
    simp [Token.is, hkind, htext']
  | cons hlexeme hrest => exact ⟨is_iff_of_isLexeme hstring hcomment hlexeme, fun _ => hrest⟩

theorem spells_keyword (h : Token.kindOf w.toList = .identifier) : Spells w (Keyword w) := by
  have hne : w ≠ "" := by
    rintro rfl
    cases h
  have hspells := spells_of_kind hne (by simp [h]) (by simp [h])
  rwa [h] at hspells

theorem spells_symbol (hne : w ≠ "") (h : Token.kindOf w.toList = .symbol) :
    Spells w (Symbol w) := by
  have hspells := spells_of_kind hne (by simp [h]) (by simp [h])
  rwa [h] at hspells

/-! ### Runs of the readers for single tokens -/

theorem bind_run {f : α → Parser β} {a : α} (h : x c = .ok (a, c')) : (x >>= f) c = f a c' := by
  show (x c >>= fun r => f r.1 r.2) = _
  rw [h]
  rfl

theorem eat_run (w : String) (c : Cursor) :
    eat w c = .ok (c.current.is w, if c.current.is w then c.next else c) := by
  show (if c.current.is w then (do modify Cursor.next; pure true) else pure false : Parser Bool) c =
    _
  split
  · next his =>
    rw [his]
    rfl
  · next his =>
    rw [Bool.not_eq_true] at his
    rw [his]
    rfl

theorem expect_eq_ok_iff {u : Unit} :
    expect w c = .ok (u, c') ↔ c.current.is w = true ∧ c' = c.next := by
  rw [expect, bind_run (eat_run w c)]
  by_cases his : c.current.is w = true
  · simp only [his, if_true]
    show Except.ok ((), c.next) = _ ↔ _
    simp [eq_comm]
  · simp only [his]
    show Except.error _ = _ ↔ _
    simp

theorem token_eq_ok_iff {kind : TokenKind} {what : Expected} {t : Token} :
    token kind what c = .ok (t, c') ↔ c.current.kind = kind ∧ t = c.current ∧ c' = c.next := by
  show (if c.current.kind = kind then (do modify Cursor.next; pure c.current)
    else unexpected what : Parser Token) c = _ ↔ _
  split
  · next hkind =>
    show Except.ok (c.current, c.next) = _ ↔ _
    simp [hkind, eq_comm]
  · next hkind =>
    show Except.error _ = _ ↔ _
    simp [hkind]

/-! ### What they recognize -/

/-- A reader that looks at one token only and passes over it. -/
theorem recognizes_of_current {p : Parser α} {P : Token → α → Prop}
    (hp : ∀ {c a c'}, p c = .ok (a, c') ↔ P c.current a ∧ c' = c.next)
    (hend : ∀ {t a}, P t a → t.kind ≠ .endOfFile) :
    Recognizes p fun ts a rest => ∃ t, ts = t :: rest ∧ P t a where
  last h := by
    obtain ⟨-, rfl⟩ := hp.1 h
    rfl
  scanned := by
    rintro _ a rest hts ⟨t, rfl, ht⟩
    exact hts.tail (hend ht)
  yields := by
    rintro ⟨ts, last, line⟩ a rest hts
    obtain ⟨t, ts', rfl⟩ := List.exists_cons_of_ne_nil hts.ne_nil
    constructor
    · rintro ⟨line', h⟩
      obtain ⟨ht, heq⟩ := hp.1 h
      cases heq
      exact ⟨t, rfl, ht⟩
    · rintro ⟨_, ⟨⟩, ht⟩
      exact ⟨t.position.line, hp.2 ⟨ht, rfl⟩⟩

theorem recognizes_token {kind : TokenKind} {what : Expected} (hkind : kind ≠ .endOfFile) :
    Recognizes (token kind what) fun ts t rest => ts = t :: rest ∧ t.kind = kind := by
  refine (recognizes_of_current (P := fun t t' => t.kind = kind ∧ t' = t) ?_ ?_).congr ?_
  · exact token_eq_ok_iff.trans and_assoc.symm
  · rintro t _ ⟨rfl, -⟩
    exact hkind
  · intro ts t rest _
    constructor
    · rintro ⟨_, hts, hk, rfl⟩
      exact ⟨hts, hk⟩
    · rintro ⟨hts, hk⟩
      exact ⟨t, hts, hk, rfl⟩

theorem recognizes_expect (hW : Spells w W) :
    Recognizes (expect w) fun ts _ rest => ∃ t, ts = t :: rest ∧ W t where
  last h := by
    obtain ⟨-, rfl⟩ := expect_eq_ok_iff.1 h
    rfl
  scanned := by
    rintro _ _ rest hts ⟨t, rfl, ht⟩
    exact (hW t rest hts).2 ht
  yields := by
    rintro ⟨ts, last, line⟩ _ rest hts
    obtain ⟨t, ts', rfl⟩ := List.exists_cons_of_ne_nil hts.ne_nil
    have his := (hW t ts' hts).1
    constructor
    · rintro ⟨line', h⟩
      obtain ⟨ht, heq⟩ := expect_eq_ok_iff.1 h
      cases heq
      exact ⟨t, rfl, his.1 ht⟩
    · rintro ⟨_, heq, ht⟩
      cases heq
      exact ⟨t.position.line, expect_eq_ok_iff.2 ⟨his.2 ht, rfl⟩⟩

theorem recognizes_eat (hW : Spells w W) :
    Recognizes (eat w) fun ts taken rest =>
      taken = true ∧ (∃ t, ts = t :: rest ∧ W t) ∨
        taken = false ∧ NotAhead W ts ∧ rest = ts where
  last {c a c'} h := by
    rw [eat_run] at h
    cases h
    split <;> rfl
  scanned := by
    rintro _ _ rest hts (⟨-, t, rfl, ht⟩ | ⟨-, -, rfl⟩)
    · exact (hW t rest hts).2 ht
    · exact hts
  yields := by
    rintro ⟨ts, last, line⟩ taken rest hts
    obtain ⟨t, ts', rfl⟩ := List.exists_cons_of_ne_nil hts.ne_nil
    have his : (Cursor.mk (t :: ts') last line).current.is w = true ↔ W t := (hW t ts' hts).1
    rw [Yields, eat_run]
    by_cases ht : W t
    · rw [his.2 ht]
      constructor
      · rintro ⟨line', ⟨⟩⟩
        exact .inl ⟨rfl, t, rfl, ht⟩
      · rintro (⟨rfl, _, ⟨⟩, -⟩ | ⟨-, hnone, -⟩)
        · exact ⟨t.position.line, rfl⟩
        · exact absurd ht (hnone t rfl)
    · rw [Bool.eq_false_iff.2 (mt his.1 ht)]
      constructor
      · rintro ⟨line', ⟨⟩⟩
        exact .inr ⟨rfl, fun _ heq => Option.some.inj heq ▸ ht, rfl⟩
      · rintro (⟨-, _, ⟨⟩, ht'⟩ | ⟨rfl, -, rfl⟩)
        · exact absurd ht' ht
        · exact ⟨line, rfl⟩

/-- A reader that goes one way if a word stands next, which it passes over, and another way if
not. -/
theorem Recognizes.ifEat (hW : Spells w W) (hx : Recognizes x G) (hy : Recognizes y H) :
    Recognizes (do if ← eat w then x else y) fun ts a rest =>
      (∃ t middle, ts = t :: middle ∧ W t ∧ G middle a rest) ∨ NotAhead W ts ∧ H ts a rest := by
  refine ((recognizes_eat hW).bind fun taken => hx.ite hy).congr fun ts a rest _ => ?_
  constructor
  · rintro ⟨taken, middle, ⟨rfl, t, rfl, ht⟩ | ⟨rfl, hnone, rfl⟩, hway⟩
    · exact .inl ⟨t, middle, rfl, ht, by simpa using hway⟩
    · exact .inr ⟨hnone, by simpa using hway⟩
  · rintro (⟨t, middle, rfl, ht, hG⟩ | ⟨hnone, hH⟩)
    · exact ⟨true, middle, .inl ⟨rfl, t, rfl, ht⟩, .inl ⟨rfl, hG⟩⟩
    · exact ⟨false, ts, .inr ⟨rfl, hnone, rfl⟩, .inr ⟨nofun, hH⟩⟩

theorem Recognizes.unlessEat (hW : Spells w W) (hx : Recognizes x G) (hy : Recognizes y H) :
    Recognizes (do if !(← eat w) then y else x) fun ts a rest =>
      (∃ t middle, ts = t :: middle ∧ W t ∧ G middle a rest) ∨ NotAhead W ts ∧ H ts a rest := by
  have hswap : (do if !(← eat w) then y else x) = (do if ← eat w then x else y) := by
    congr
    funext taken
    cases taken <;> rfl
  rw [hswap]
  exact .ifEat hW hx hy

/-! ## Comments and skipped tokens -/

/-- Where the tokens of a kind end. -/
theorem takeWhile_iff {p : Token → Bool} {ts passed : List Token} :
    (ts = passed ++ rest ∧ (∀ t ∈ passed, p t = true) ∧ NotAhead (fun t => p t = true) rest) ↔
      passed = ts.takeWhile p ∧ rest = ts.dropWhile p := by
  constructor
  · rintro ⟨rfl, hpassed, hrest⟩
    have hstop : rest.takeWhile p = [] ∧ rest.dropWhile p = rest := by
      cases rest with
      | nil => exact ⟨rfl, rfl⟩
      | cons t rest => simp [hrest t rfl]
    rw [List.takeWhile_append_of_pos hpassed, List.dropWhile_append_of_pos hpassed, hstop.1,
      hstop.2, List.append_nil]
    exact ⟨rfl, rfl⟩
  · rintro ⟨rfl, rfl⟩
    refine ⟨List.takeWhile_append_dropWhile.symm, ?_, ?_⟩
    · exact List.all_eq_true.1 List.all_takeWhile
    · intro t ht hp
      have hnot := List.head?_dropWhile_not p ts
      rw [ht] at hnot
      simp [hp] at hnot

theorem skip_append (passed rest : List Token) (last : Token) (line : Nat) :
    ∃ line', (Cursor.mk (passed ++ rest) last line).skip passed = ⟨rest, last, line'⟩ := by
  induction passed generalizing line with
  | nil => exact ⟨line, rfl⟩
  | cons t passed ih => exact ih t.position.line

theorem skip_takeWhile (p : Token → Bool) (c : Cursor) :
    ∃ line, c.skip (c.ahead.takeWhile p) = ⟨c.ahead.dropWhile p, c.last, line⟩ := by
  have hskip := skip_append (c.ahead.takeWhile p) (c.ahead.dropWhile p) c.last c.line
  rwa [List.takeWhile_append_dropWhile] at hskip

theorem scanned_of_append {passed : List Token} (h : Scanned (passed ++ rest))
    (hpassed : ∀ t ∈ passed, t.kind ≠ .endOfFile) : Scanned rest := by
  induction passed with
  | nil => exact h
  | cons t passed ih =>
    rw [List.forall_mem_cons] at hpassed
    exact ih (h.tail hpassed.1) hpassed.2

/-- Passing over tokens ends at the end of the file at the latest. -/
theorem skip_stops {p : Token → Bool} (hp : ∀ t, p t = true → t.kind ≠ .endOfFile)
    (hc : Scanned c.ahead) :
    p (c.skip (c.ahead.takeWhile p)).current = false ∧ Scanned (c.ahead.dropWhile p) := by
  have hsplit := List.takeWhile_append_dropWhile (p := p) (l := c.ahead)
  have htake := List.all_eq_true.1 (List.all_takeWhile (p := p) (l := c.ahead))
  have hrest : Scanned (c.ahead.dropWhile p) :=
    scanned_of_append (hsplit.symm ▸ hc) fun t ht => hp t (htake t ht)
  refine ⟨?_, hrest⟩
  obtain ⟨line, hskip⟩ := skip_takeWhile p c
  obtain ⟨t, after, hdrop⟩ := List.exists_cons_of_ne_nil hrest.ne_nil
  have hnot := (takeWhile_iff.2 ⟨rfl, hdrop.symm⟩).2.2 t rfl
  rw [hskip, hdrop]
  exact Bool.eq_false_iff.2 hnot

theorem comments_run (c : Cursor) :
    comments c =
      if (c.skip (c.ahead.takeWhile Token.isComment)).current.isComment then .error .endless
      else .ok (said (c.ahead.takeWhile Token.isComment),
        c.skip (c.ahead.takeWhile Token.isComment)) := by
  show (if (c.skip (c.ahead.takeWhile Token.isComment)).current.isComment then _
    else _ : Parser (List String)) c = _
  split <;> rfl

theorem recognizes_comments :
    Recognizes comments fun ts words rest =>
      ∃ cs, ts = cs ++ rest ∧ Comments cs ∧ words = said cs ∧
        NotAhead (fun t => t.kind = .comment) rest where
  last {c a c'} h := by
    rw [comments_run] at h
    split at h
    · cases h
    · cases h
      obtain ⟨line, hskip⟩ := skip_takeWhile Token.isComment c
      rw [hskip]
  scanned := by
    rintro _ _ rest hts ⟨cs, rfl, hcs, -, -⟩
    exact scanned_of_append hts fun t ht => by simp [hcs t ht]
  yields := by
    intro c words rest hc
    have hkind (t : Token) : t.isComment = true ↔ t.kind = .comment := by simp [Token.isComment]
    obtain ⟨hstop, -⟩ := skip_stops (p := Token.isComment) (by simp +contextual [hkind]) hc
    obtain ⟨line, hskip⟩ := skip_takeWhile Token.isComment c
    rw [Yields, comments_run, hstop, hskip]
    constructor
    · rintro ⟨_, ⟨⟩⟩
      obtain ⟨hsplit, hpassed, hrest⟩ := takeWhile_iff.2 ⟨rfl, rfl⟩
      exact ⟨_, hsplit, fun t ht => (hkind t).1 (hpassed t ht), rfl,
        fun t ht => mt (hkind t).2 (hrest t ht)⟩
    · rintro ⟨cs, hsplit, hcs, rfl, hrest⟩
      obtain ⟨rfl, rfl⟩ := takeWhile_iff.1
        ⟨hsplit, fun t ht => (hkind t).2 (hcs t ht), fun t ht => mt (hkind t).1 (hrest t ht)⟩
      exact ⟨line, rfl⟩

theorem skipStatement_run (c : Cursor) :
    skipStatement c =
      if endsStatement (c.skip (c.ahead.takeWhile fun t => !endsStatement t)).current then
        expect ";" (c.skip (c.ahead.takeWhile fun t => !endsStatement t))
      else .error .endless := by
  show (if !endsStatement (c.skip (c.ahead.takeWhile fun t => !endsStatement t)).current then _
    else _ : Parser Unit) c = _
  cases endsStatement (c.skip (c.ahead.takeWhile fun t => !endsStatement t)).current <;> rfl

theorem spells_semicolon : Spells ";" (Symbol ";") :=
  spells_symbol (by decide) (by decide)

theorem recognizes_skipStatement :
    Recognizes skipStatement fun ts _ rest =>
      ∃ skipped semicolon, ts = skipped ++ semicolon :: rest ∧
        (∀ t ∈ skipped, ¬ Symbol ";" t) ∧ Symbol ";" semicolon where
  last {c a c'} h := by
    rw [skipStatement_run] at h
    split at h
    · obtain ⟨line, hskip⟩ := skip_takeWhile (fun t => !endsStatement t) c
      rw [hskip] at h
      obtain ⟨-, rfl⟩ := expect_eq_ok_iff.1 h
      rfl
    · cases h
  scanned := by
    rintro _ _ rest hts ⟨skipped, semicolon, rfl, -, hsemicolon⟩
    have hlexeme (t : Token) (ht : t ∈ skipped) := hts.isLexeme_of_mem (by simp) ht
    have hmiddle := scanned_of_append hts fun t ht => (hlexeme t ht).kind_ne_endOfFile
    exact hmiddle.tail (by simp [hsemicolon.1])
  yields := by
    intro c u rest hc
    obtain ⟨hstop, hdrop⟩ :=
      skip_stops (p := fun t => !endsStatement t) (by simp [endsStatement]) hc
    obtain ⟨line, hskip⟩ := skip_takeWhile (fun t => !endsStatement t) c
    rw [Bool.not_eq_false'] at hstop
    rw [Yields, skipStatement_run, hstop, hskip]
    refine ((recognizes_expect spells_semicolon).yields
      (c := ⟨c.ahead.dropWhile fun t => !endsStatement t, c.last, line⟩) hdrop).trans ?_
    constructor
    · rintro ⟨semicolon, hrest, hsemicolon⟩
      obtain ⟨hsplit, hpassed, -⟩ := takeWhile_iff.2 ⟨rfl, hrest.symm⟩
      refine ⟨_, semicolon, hsplit, fun t ht hsymbol => ?_, hsemicolon⟩
      have hends := hpassed t ht
      simp [endsStatement, Token.is, hsymbol.1, hsymbol.2] at hends
    · rintro ⟨skipped, semicolon, hsplit, hskipped, hsemicolon⟩
      -- a lexeme ends a statement only as a semicolon
      have hpassed (t : Token) (ht : t ∈ skipped) : (!endsStatement t) = true := by
        have hlexeme := (hsplit ▸ hc).isLexeme_of_mem (by simp) ht
        have his : ¬ t.is ";" = true :=
          mt (is_iff_of_isLexeme (by decide) (by decide) hlexeme).1 (hskipped t ht)
        simp [endsStatement, his, hlexeme.kind_ne_endOfFile]
      have hends : ¬ (!endsStatement semicolon) = true := by
        simp [endsStatement, Token.is, hsemicolon.1, hsemicolon.2]
      obtain ⟨-, hrest⟩ := takeWhile_iff.1 ⟨hsplit, hpassed, fun t ht => Option.some.inj ht ▸ hends⟩
      exact ⟨semicolon, hrest.symm, hsemicolon⟩

/-! ## A comment on the line before the cursor -/

theorem trailingComment_run (c : Cursor) :
    trailingComment c =
      .ok (if c.current.isComment && c.current.position.line == c.line then
        (said [c.current], c.next) else ([], c)) := by
  show (if c.current.isComment && c.current.position.line == c.line then _
    else _ : Parser (List String)) c = _
  split <;> rfl

theorem yields_trailingComment {input : List Token} {last : Token} {line : Nat}
    (hinput : Scanned input) {words : List String} :
    Yields trailingComment ⟨input, last, line⟩ words rest ↔ Behind line input words rest := by
  obtain ⟨t, after, rfl⟩ := List.exists_cons_of_ne_nil hinput.ne_nil
  have hcond : (t.isComment && t.position.line == line) = true ↔
      t.kind = .comment ∧ t.position.line = line := by
    simp [Token.isComment]
  rw [Yields, trailingComment_run]
  show (∃ line', Except.ok (if (t.isComment && t.position.line == line) = true then _ else _) =
    _) ↔ _
  split
  · next his =>
    obtain ⟨hkind, hline⟩ := hcond.1 his
    constructor
    · rintro ⟨_, ⟨⟩⟩
      exact .comment hkind hline
    · rintro (_ | hnone)
      · exact ⟨t.position.line, rfl⟩
      · exact absurd ⟨hkind, hline⟩ (hnone t rfl)
  · next his =>
    constructor
    · rintro ⟨_, ⟨⟩⟩
      exact .nothing fun _ heq => Option.some.inj heq ▸ mt hcond.2 his
    · rintro (⟨hkind, hline⟩ | _)
      · exact absurd (hcond.2 ⟨hkind, hline⟩) his
      · exact ⟨line, rfl⟩

/-- The line before the cursor is that of the token just read. -/
theorem recognizes_behind (hW : Spells w W) :
    Recognizes (do expect w; trailingComment) fun ts words rest =>
      ∃ t input, ts = t :: input ∧ W t ∧ Behind t.position.line input words rest where
  last {c words c'} h := by
    obtain ⟨⟨_, c₁⟩, hfirst, hsecond⟩ := FillingLemmas.bind_eq_ok.1 h
    obtain ⟨-, rfl⟩ := expect_eq_ok_iff.1 hfirst
    replace hsecond : trailingComment c.next = _ := hsecond
    rw [trailingComment_run] at hsecond
    split at hsecond <;> cases hsecond <;> rfl
  scanned := by
    rintro _ words rest hts ⟨t, input, rfl, ht, hbehind⟩
    have hinput := (hW t input hts).2 ht
    cases hbehind with
    | comment hkind _ => exact hinput.tail (by simp [hkind])
    | nothing => exact hinput
  yields := by
    rintro ⟨ts, last, line⟩ words rest hts
    obtain ⟨t, input, rfl⟩ := List.exists_cons_of_ne_nil hts.ne_nil
    obtain ⟨his, hinput⟩ := hW t input hts
    constructor
    · rintro ⟨line', h⟩
      obtain ⟨⟨_, c₁⟩, hfirst, hsecond⟩ := FillingLemmas.bind_eq_ok.1 h
      obtain ⟨ht, rfl⟩ := expect_eq_ok_iff.1 hfirst
      have hW := his.1 ht
      exact ⟨t, input, rfl, hW, (yields_trailingComment (hinput hW)).1 ⟨line', hsecond⟩⟩
    · rintro ⟨_, _, ⟨⟩, ht, hbehind⟩
      have hyields : Yields trailingComment ⟨input, last, t.position.line⟩ words rest :=
        (yields_trailingComment (hinput ht)).2 hbehind
      obtain ⟨line', h⟩ := hyields
      have hexpect : expect w ⟨t :: input, last, line⟩ = .ok ((), ⟨input, last, t.position.line⟩) :=
        expect_eq_ok_iff.2 ⟨his.2 ht, rfl⟩
      exact ⟨line', (bind_run hexpect).trans h⟩

theorem Recognizes.expectBehind (hW : Spells w W) {f : List String → Parser β}
    {H : List String → List Token → β → List Token → Prop}
    (hf : ∀ words, Recognizes (f words) (H words)) :
    Recognizes (do expect w; f (← trailingComment)) fun ts b rest =>
      ∃ t input words middle, ts = t :: input ∧ W t ∧
        Behind t.position.line input words middle ∧ H words middle b rest := by
  rw [← bind_assoc]
  refine ((recognizes_behind hW).bind hf).congr fun ts b rest _ => ?_
  constructor
  · rintro ⟨words, middle, ⟨t, input, hts, ht, hbehind⟩, hH⟩
    exact ⟨t, input, words, middle, hts, ht, hbehind, hH⟩
  · rintro ⟨t, input, words, middle, hts, ht, hbehind, hH⟩
    exact ⟨words, middle, ⟨t, input, hts, ht, hbehind⟩, hH⟩

/-! ## Repetition -/

/-- Phrases `G` one behind the other, until one stands for nothing. -/
inductive Many (G : List Token → Option α → List Token → Prop) :
    List Token → List α → List Token → Prop
  | done {ts rest : List Token} (none : G ts none rest) : Many G ts [] rest
  | step {ts middle rest : List Token} {a : α} {items : List α} (first : G ts (some a) middle)
      (others : Many G middle items rest) : Many G ts (a :: items) rest

theorem collect_eq_ok_iff {item : Parser (Option α)} {items : List α} :
    collect item c = .ok (items, c') ↔
      item c = .ok (none, c') ∧ items = [] ∨
        ∃ a next others, item c = .ok (some a, next) ∧ next.ahead.length < c.ahead.length ∧
          collect item next = .ok (others, c') ∧ items = a :: others := by
  rw [collect]
  split
  · next hrun => simp [hrun]
  · next hrun => simp [hrun, and_comm, eq_comm]
  · next a next hrun =>
    by_cases hshorter : next.ahead.length < c.ahead.length
    · rcases hrest : collect item next with e | ⟨others, fin⟩
      · simp [hrun, hshorter, hrest]
      · simp only [hrun, if_pos hshorter]
        grind
    · simp only [hrun, if_neg hshorter]
      grind

theorem Recognizes.collect {item : Parser (Option α)}
    {G : List Token → Option α → List Token → Prop} (hitem : Recognizes item G)
    (hless : ∀ {c a c'}, item c = .ok (some a, c') → c'.ahead.length < c.ahead.length) :
    Recognizes (collect item) (Many G) where
  last {c items c'} h := by
    induction hn : c.ahead.length using Nat.strongRecOn generalizing c items with
    | ind n ih =>
      obtain ⟨hrun, -⟩ | ⟨a, next, others, hrun, hshorter, hrest, -⟩ := collect_eq_ok_iff.1 h
      · exact hitem.last hrun
      · exact (ih _ (hn ▸ hshorter) hrest rfl).trans (hitem.last hrun)
  scanned hts h := by
    induction h with
    | done hnone => exact hitem.scanned hts hnone
    | step hfirst _ ih => exact ih (hitem.scanned hts hfirst)
  yields {c items rest} hc := by
    constructor
    · rintro ⟨line, h⟩
      induction hn : c.ahead.length using Nat.strongRecOn generalizing c items with
      | ind n ih =>
        obtain ⟨hrun, rfl⟩ | ⟨a, next, others, hrun, hshorter, hrest, rfl⟩ := collect_eq_ok_iff.1 h
        · exact .done ((hitem.yields hc).1 ⟨line, hrun⟩)
        · have hlast := hitem.last hrun
          have hfirst : G c.ahead (some a) next.ahead :=
            (hitem.yields hc).1 ⟨next.line, by rw [hrun, ← hlast]⟩
          rw [← hlast] at hrest
          exact .step hfirst (ih _ (hn ▸ hshorter) (hitem.scanned hc hfirst) hrest rfl)
    · intro h
      generalize hahead : c.ahead = ts at h hc
      induction h generalizing c with
      | done hnone =>
        obtain ⟨line, hrun⟩ := (hitem.yields (hahead ▸ hc)).2 (hahead.symm ▸ hnone)
        exact ⟨line, collect_eq_ok_iff.2 (.inl ⟨hrun, rfl⟩)⟩
      | @step ts middle rest a items hfirst _ ih =>
        obtain ⟨line, hrun⟩ := (hitem.yields (hahead ▸ hc)).2 (hahead.symm ▸ hfirst)
        obtain ⟨line', hrest⟩ := ih (c := ⟨middle, c.last, line⟩) rfl (hitem.scanned hc hfirst)
        exact ⟨line', collect_eq_ok_iff.2 (.inr ⟨a, _, items, hrun, hless hrun, hrest, rfl⟩)⟩

end SchemaGen.Document
