import SchemaGen.Proofs.Layout
import SchemaGen.Proofs.Parsing
import SchemaGen.Proofs.RoundTrip

/-!
# Readings of the same words

Two texts whose tokens are the same words, comments apart, are read side by side. `Agrees R p p'`
says that the readers `p` and `p'`, put before the same words, go the same way: they read values
that `R` relates and stop before the same words, or both fail for the same cause. Readers that are
put together from others agree if the parts do. A reader looks at a position only where it looks for
a comment, so every reader of schema texts agrees with itself.

Results:
1. `Alike.next`, `Alike.skip`: cursors go on side by side.
2. `Agrees.bind`, `Agrees.collect`: readers that are put together.
3. `agrees_statement`: the readers of schema texts.
4. `ofTokens_alike`: tokens that are the same words make the same document up to positions, or fail
   for the same cause. `layout_irrelevant`: blanks do not matter, neither for tokens nor for
   documents.
-/

namespace SchemaGen.Document

open Text (unquote)
open Token (Scanned)

variable {α β γ : Type}

/-! ## Definitions -/

/-- Two tokens are the same word, wherever they stand. -/
structure SameWord (t t' : Token) : Prop where
  kind : t.kind = t'.kind
  text : t.text = t'.text

/-- Two cursors stand before the tokens of texts that are the same words, and none is a comment. -/
structure Alike (c c' : Cursor) : Prop where
  scanned : Scanned c.ahead
  words : c.ahead.map Token.word = c'.ahead.map Token.word
  plain : ∀ t ∈ c.ahead, t.kind ≠ .comment

/-- Two outcomes of reading: values that `R` relates before the same words, or faults of the same
cause. -/
inductive Together (R : α → α → Prop) :
    Except ParseError (α × Cursor) → Except ParseError (α × Cursor) → Prop
  | read {a a' : α} {c c' : Cursor} (hvalue : R a a') (hcursor : Alike c c') :
      Together R (.ok (a, c)) (.ok (a', c'))
  | refused {e e' : SyntaxError} (hcause : e.cause = e'.cause) :
      Together R (.error (.fault e)) (.error (.fault e'))

/-- Before the same words, the readers `p` and `p'` go the same way. -/
structure Agrees (R : α → α → Prop) (p p' : Parser α) : Prop where
  together : ∀ {c c'}, Alike c c' → Together R (p c) (p' c')

/-! ## 1. Cursors before the same words -/

variable {t t' : Token} {ts ts' : List Token} {x x' y y' : Parser α} {w : String} {μ : Type}
  {erase : μ → μ}

theorem SameWord.is (h : SameWord t t') : t.is = t'.is := by
  funext w
  rw [Token.is, Token.is, h.kind, h.text]

theorem scanned_of_words (h : Scanned ts) (hwords : ts.map Token.word = ts'.map Token.word) :
    Scanned ts' := by
  induction h generalizing ts' with
  | @last t hkind htext =>
    obtain ⟨t', rfl, hword⟩ := List.map_eq_singleton_iff.1 hwords.symm
    obtain ⟨hkind', htext'⟩ := Prod.mk.inj hword
    exact .last (hkind'.trans hkind) (htext'.trans htext)
  | @cons t ts ht _ ih =>
    obtain ⟨t', ts', rfl, hword, hrest⟩ := List.map_eq_cons_iff.1 hwords.symm
    obtain ⟨hkind, htext⟩ := Prod.mk.inj hword
    refine .cons ⟨?_, ?_⟩ (ih hrest.symm)
    · rw [hkind, htext, ht.kind]
    · rw [htext]
      exact ht.front

theorem dropWhile_words {p : Token → Bool} (hp : ∀ t, p t = p ⟨t.kind, t.text, .start⟩)
    (h : ts.map Token.word = ts'.map Token.word) :
    (ts.dropWhile p).map Token.word = (ts'.dropWhile p).map Token.word := by
  let q (w : TokenKind × String) : Bool := p ⟨w.1, w.2, .start⟩
  have hq : p = q ∘ Token.word := funext hp
  rw [hq, ← List.dropWhile_map, ← List.dropWhile_map, h]

namespace Alike

variable {c c' : Cursor}

theorem symm (h : Alike c c') : Alike c' c where
  scanned := scanned_of_words h.scanned h.words
  words := h.words.symm
  plain := by
    intro t' ht' hkind
    have hmem : t'.word ∈ c.ahead.map Token.word := h.words ▸ List.mem_map_of_mem ht'
    obtain ⟨t, ht, hword⟩ := List.mem_map.1 hmem
    exact h.plain t ht ((Prod.mk.inj hword).1.trans hkind)

/-- The tokens that stand next are the same word. -/
theorem exists_cons (h : Alike c c') :
    ∃ t ts t' ts', c.ahead = t :: ts ∧ c'.ahead = t' :: ts' ∧ SameWord t t' ∧
      ts.map Token.word = ts'.map Token.word := by
  obtain ⟨t, ts, hahead⟩ := List.exists_cons_of_ne_nil h.scanned.ne_nil
  have hwords := h.words
  rw [hahead, List.map_cons] at hwords
  obtain ⟨t', ts', hahead', hword, hrest⟩ := List.map_eq_cons_iff.1 hwords.symm
  obtain ⟨hkind, htext⟩ := Prod.mk.inj hword.symm
  exact ⟨t, ts, t', ts', hahead, hahead', ⟨hkind, htext⟩, hrest.symm⟩

theorem current (h : Alike c c') : SameWord c.current c'.current := by
  obtain ⟨t, ts, t', ts', hahead, hahead', hword, -⟩ := h.exists_cons
  simp only [Cursor.current, hahead, hahead', List.headD_cons]
  exact hword

theorem current_text (h : Alike c c') (hend : c.current.kind = .endOfFile) :
    c.current.text = "" := by
  obtain ⟨t, ts, -, -, hahead, -⟩ := h.exists_cons
  have hscanned := h.scanned
  rw [hahead] at hscanned
  simp only [Cursor.current, hahead, List.headD_cons] at hend ⊢
  cases hscanned with
  | last _ htext => exact htext
  | cons hlexeme => exact absurd hend hlexeme.kind_ne_endOfFile

theorem current_mem (h : Alike c c') : c.current ∈ c.ahead := by
  obtain ⟨t, ts, -, -, hahead, -⟩ := h.exists_cons
  simp [Cursor.current, hahead]

theorem next (h : Alike c c') (hend : c.current.kind ≠ .endOfFile) : Alike c.next c'.next := by
  obtain ⟨t, ts, t', ts', hahead, hahead', -, hrest⟩ := h.exists_cons
  have hscanned := h.scanned
  have hplain := h.plain
  rw [hahead] at hscanned hplain
  have ht : t.kind ≠ .endOfFile := by simpa [Cursor.current, hahead] using hend
  refine ⟨?_, ?_, ?_⟩
  · simpa [Cursor.next, hahead] using hscanned.tail ht
  · simpa [Cursor.next, hahead, hahead'] using hrest
  · simpa [Cursor.next, hahead] using fun u hu => hplain u (List.mem_cons_of_mem t hu)

theorem isComment (h : Alike c c') : c.current.isComment = false :=
  decide_eq_false (h.plain _ h.current_mem)

theorem takeWhile_isComment (h : Alike c c') : c.ahead.takeWhile Token.isComment = [] := by
  obtain ⟨t, ts, -, -, hahead, -⟩ := h.exists_cons
  have ht : t.isComment = false := decide_eq_false (h.plain t (by simp [hahead]))
  simp [hahead, ht]

/-- Cursors that pass over tokens by their words come before the same words again. -/
theorem skip {p : Token → Bool} (hp : ∀ t, p t = p ⟨t.kind, t.text, .start⟩)
    (hend : ∀ t, p t = true → t.kind ≠ .endOfFile) (h : Alike c c') :
    Alike (c.skip (c.ahead.takeWhile p)) (c'.skip (c'.ahead.takeWhile p)) := by
  obtain ⟨line, hskip⟩ := skip_takeWhile p c
  obtain ⟨line', hskip'⟩ := skip_takeWhile p c'
  rw [hskip, hskip']
  refine ⟨(skip_stops hend h.scanned).2, dropWhile_words hp h.words, fun t ht => ?_⟩
  · exact h.plain t ((List.dropWhile_sublist p).subset ht)

theorem length (h : Alike c c') : c.ahead.length = c'.ahead.length := by
  simpa using congrArg List.length h.words

end Alike

/-! ## 2. Putting readers together -/

variable {R : α → α → Prop} {S : β → β → Prop}

theorem Agrees.pure {a a' : α} (h : R a a') : Agrees R (pure a) (pure a') :=
  ⟨fun hc => .read h hc⟩

theorem Together.cases {x x' : Except ParseError (α × Cursor)} (h : Together R x x') :
    (∃ a a' c c', x = .ok (a, c) ∧ x' = .ok (a', c') ∧ R a a' ∧ Alike c c') ∨
      ∃ e e', x = .error (.fault e) ∧ x' = .error (.fault e') ∧ e.cause = e'.cause := by
  cases h with
  | read hvalue hcursor => exact .inl ⟨_, _, _, _, rfl, rfl, hvalue, hcursor⟩
  | refused hcause => exact .inr ⟨_, _, rfl, rfl, hcause⟩

theorem Agrees.bind {p p' : Parser α} {f f' : α → Parser β} (hp : Agrees R p p')
    (hf : ∀ a a', R a a' → Agrees S (f a) (f' a')) : Agrees S (p >>= f) (p' >>= f') := by
  refine ⟨fun {c c'} hc => ?_⟩
  show Together S (p c >>= fun r => f r.1 r.2) (p' c' >>= fun r => f' r.1 r.2)
  obtain ⟨a, a', d, d', hx, hx', hvalue, hd⟩ | ⟨e, e', hx, hx', hcause⟩ := (hp.together hc).cases
  · rw [hx, hx']
    exact (hf a a' hvalue).together hd
  · rw [hx, hx']
    exact .refused hcause

theorem Agrees.ite {p : Prop} [Decidable p] (hx : Agrees R x x') (hy : Agrees R y y') :
    Agrees R (if p then x else y) (if p then x' else y') := by
  split
  · exact hx
  · exact hy

theorem agrees_failAt {cause cause' : SyntaxCause} (h : cause = cause') :
    Agrees R (failAt t cause) (failAt t' cause') :=
  ⟨fun _ => .refused h⟩

theorem agrees_peek :
    Agrees SameWord peek peek :=
  ⟨fun hc => .read hc.current hc⟩

/-- What is read again and again agrees, since it always takes a token away. -/
theorem Agrees.collect {item : Parser (Option α)} {f : α → γ}
    (hitem : Agrees (fun a a' => a.map f = a'.map f) item item)
    (hless : ∀ {c a c'}, item c = .ok (some a, c') → c'.ahead.length < c.ahead.length) :
    Agrees (fun l l' => l.map f = l'.map f) (collect item) (collect item) := by
  refine ⟨fun {c c'} hc => ?_⟩
  induction hn : c.ahead.length using Nat.strongRecOn generalizing c c' with
  | ind n ih =>
    rw [Document.collect, Document.collect]
    obtain ⟨a, a', next, next', hx, hx', hvalue, hnext⟩ | ⟨e, e', hx, hx', hcause⟩ :=
      (hitem.together hc).cases
    · rw [hx, hx']
      cases a with
      | none =>
        obtain rfl : a' = none := by simpa [eq_comm] using hvalue
        exact .read rfl hnext
      | some a =>
        obtain ⟨a', rfl, ha⟩ := Option.map_eq_some_iff.1 hvalue.symm
        have hshorter := hless hx
        have hshorter' : next'.ahead.length < c'.ahead.length := by
          rwa [← hnext.length, ← hc.length]
        simp only [if_pos hshorter, if_pos hshorter']
        obtain ⟨l, l', fin, fin', hrest, hrest', hvalues, hfin⟩ | ⟨e, e', hrest, hrest', hcause⟩ :=
          (ih _ (hn ▸ hshorter) hnext rfl).cases
        · rw [hrest, hrest']
          exact .read (by rw [List.map_cons, List.map_cons, ha, hvalues]) hfin
        · rw [hrest, hrest']
          exact .refused hcause
    · rw [hx, hx']
      exact .refused hcause

/-! ## 3. The readers of schema texts -/

theorem agrees_unexpected (what : Expected) : Agrees R (unexpected what) (unexpected what) := by
  refine agrees_peek.bind fun t t' ht => agrees_failAt ?_
  rw [ht.kind, ht.text]

theorem agrees_eat (hw : w ≠ "") : Agrees Eq (eat w) (eat w) := by
  refine ⟨fun {c c'} hc => ?_⟩
  rw [eat_run, eat_run, ← hc.current.is]
  split
  · next his =>
    refine .read rfl (hc.next fun hend => hw ?_)
    obtain rfl : c.current.text = w := by simpa [Token.is] using (Bool.and_eq_true_iff.1 his).2
    exact hc.current_text hend
  · exact .read rfl hc

theorem Agrees.ifEat (hw : w ≠ "") (hx : Agrees R x x') (hy : Agrees R y y') :
    Agrees R (do if ← eat w then x else y) (do if ← eat w then x' else y') :=
  (agrees_eat hw).bind fun _ _ htaken => htaken ▸ .ite hx hy

theorem agrees_expect (hw : w ≠ "") : Agrees Eq (expect w) (expect w) :=
  (agrees_eat hw).bind fun _ _ htaken => htaken ▸ (agrees_unexpected _).ite (.pure rfl)

theorem agrees_token {kind : TokenKind} (hkind : kind ≠ .endOfFile) (what : Expected) :
    Agrees SameWord (token kind what)
      (token kind what) := by
  refine ⟨fun {c c'} hc => ?_⟩
  show Together _ ((if c.current.kind = kind then (do modify Cursor.next; pure c.current)
    else unexpected what : Parser Token) c) ((if c'.current.kind = kind then
      (do modify Cursor.next; pure c'.current) else unexpected what : Parser Token) c')
  rw [← hc.current.kind]
  split
  · next h => exact .read hc.current (hc.next fun hend => hkind (h.symm.trans hend))
  · exact (agrees_unexpected what).together hc

theorem agrees_identifier :
    Agrees SameWord identifier identifier :=
  agrees_token (by decide) _

theorem agrees_stringValue : Agrees Eq stringValue stringValue :=
  (agrees_token (by decide) _).bind fun _ _ ht => .pure (by rw [ht.text])

theorem agrees_integerValue : Agrees Eq integerValue integerValue := by
  refine (agrees_token (by decide) _).bind fun t t' ht => ?_
  rw [ht.text]
  cases Text.int32? t'.text with
  | some n => exact .pure rfl
  | none => exact agrees_failAt rfl

theorem agrees_optionValue : Agrees Eq optionValue optionValue := by
  refine ⟨fun {c c'} hc => ?_⟩
  have hend {kind : TokenKind} (hkind : c.current.kind = kind) (hne : kind ≠ .endOfFile) :
      c.current.kind ≠ .endOfFile := hkind ▸ hne
  rw [optionValue, bind_run (show peek c = .ok (c.current, c) from rfl),
    bind_run (show peek c' = .ok (c'.current, c') from rfl), ← hc.current.kind, hc.current.text]
  cases hkind : c.current.kind with
  | string => exact .read rfl (hc.next (hend hkind (by decide)))
  | identifier => exact .read rfl (hc.next (hend hkind (by decide)))
  | integer => exact .read rfl (hc.next (hend hkind (by decide)))
  | symbol => exact (agrees_unexpected _).together hc
  | comment => exact (agrees_unexpected _).together hc
  | endOfFile => exact (agrees_unexpected _).together hc

theorem agrees_setting : Agrees Eq setting setting :=
  agrees_identifier.bind fun _ _ hname => (agrees_expect (by decide)).bind fun _ _ _ =>
    agrees_optionValue.bind fun _ _ hvalue => .pure (by rw [hname.text, hvalue])

theorem agrees_comments : Agrees Eq comments comments := by
  refine ⟨fun {c c'} hc => ?_⟩
  have hrun {c c' : Cursor} (hc : Alike c c') : comments c = .ok ([], c) := by
    have hcurrent : ¬ (c.skip []).current.isComment = true := Bool.eq_false_iff.1 hc.isComment
    rw [comments_run, hc.takeWhile_isComment, if_neg hcurrent]
    rfl
  rw [hrun hc, hrun hc.symm]
  exact .read rfl hc

theorem agrees_trailingComment : Agrees Eq trailingComment trailingComment := by
  refine ⟨fun {c c'} hc => ?_⟩
  rw [trailingComment_run, trailingComment_run, hc.isComment, hc.symm.isComment]
  exact .read rfl hc

theorem agrees_skipStatement : Agrees Eq skipStatement skipStatement := by
  refine ⟨fun {c c'} hc => ?_⟩
  have hend (t : Token) (ht : (!endsStatement t) = true) : t.kind ≠ .endOfFile := by
    simp [endsStatement] at ht
    exact ht.2
  have hrun {c c' : Cursor} (hc : Alike c c') : skipStatement c =
      expect ";" (c.skip (c.ahead.takeWhile fun t => !endsStatement t)) := by
    rw [skipStatement_run, if_pos (by simpa using (skip_stops hend hc.scanned).1)]
  rw [hrun hc, hrun hc.symm]
  exact (agrees_expect (by decide)).together (hc.skip (fun _ => rfl) hend)

theorem agrees_fieldSettings : Agrees Eq fieldSettings fieldSettings := by
  have hitem : Agrees (fun a a' => a.map id = a'.map id)
      (do if ← eat "," then return some (← setting) else return none)
      (do if ← eat "," then return some (← setting) else return none) :=
    .ifEat (by decide) (agrees_setting.bind fun _ _ hsetting => .pure (by rw [hsetting]))
      (.pure rfl)
  have hothers := hitem.collect itemized_nextSetting.shorter
  refine (agrees_eat (by decide)).bind fun _ _ htaken => htaken ▸ .ite (.pure rfl)
    (agrees_setting.bind fun _ _ hfirst => hothers.bind fun _ _ hothers =>
      (agrees_expect (by decide)).bind fun _ _ _ => .pure ?_)
  rw [List.map_id, List.map_id] at hothers
  rw [hfirst, hothers]

theorem agrees_fieldType (cardinality : Cardinality) :
    Agrees Eq (fieldType cardinality) (fieldType cardinality) := by
  refine .ifEat (by decide) ?_ (agrees_identifier.bind fun _ _ hname => .pure (by rw [hname.text]))
  refine (agrees_expect (by decide)).bind fun _ _ _ => agrees_identifier.bind fun _ _ hkey =>
    (agrees_expect (by decide)).bind fun _ _ _ => agrees_identifier.bind fun _ _ hvalue =>
    (agrees_expect (by decide)).bind fun _ _ _ => .ite
      (agrees_peek.bind fun _ _ _ => (agrees_failAt (R := Eq) rfl).bind fun _ _ _ => .pure ?_)
      (.pure ?_)
  · rw [hkey.text, hvalue.text]
  · rw [hkey.text, hvalue.text]

theorem agrees_fieldCardinality : Agrees Eq fieldCardinality fieldCardinality :=
  .ifEat (by decide) (.pure rfl) <| .ifEat (by decide) (.pure rfl) <|
    (agrees_eat (by decide)).bind fun _ _ _ => .pure rfl

theorem agrees_numbered (before : List String) :
    Agrees (fun c c' => c.unplaced = c'.unplaced) (numbered before) (numbered before) := by
  refine agrees_identifier.bind fun name name' hname => (agrees_expect (by decide)).bind
    fun _ _ _ => agrees_integerValue.bind fun _ _ hnumber => agrees_fieldSettings.bind
    fun _ _ hignored => (agrees_expect (by decide)).bind fun _ _ _ => agrees_trailingComment.bind
    fun _ _ hbehind => .pure ?_
  rw [ConstantDecl.unplaced, ConstantDecl.unplaced, hname.text, hnumber, hignored, hbehind]

theorem agrees_field (before : List String) :
    Agrees (fun f f' => f.unplaced = f'.unplaced) (field before) (field before) := by
  refine agrees_fieldCardinality.bind fun cardinality _ hcardinality => ?_
  subst hcardinality
  refine (agrees_fieldType cardinality).bind fun _ _ htype => (agrees_numbered before).bind
    fun c c' hrest => .pure ?_
  obtain ⟨hdescribed, hnumber, -⟩ := ConstantDecl.mk.inj hrest
  rw [FieldDecl.unplaced, FieldDecl.unplaced, htype, hdescribed, hnumber]

/-! ### Definitions -/

/-- An item wherever it stands. -/
def Item.unplaced {μ : Type} (erase : μ → μ) : Item μ → Item μ
  | .setting marks => .setting marks
  | .reserved => .reserved
  | .member m => .member (erase m)

theorem marks_unplaced (item : Item μ) : (item.unplaced erase).marks = item.marks := by
  cases item <;> rfl

theorem member?_unplaced (item : Item μ) :
    (item.unplaced erase).member? = item.member?.map erase := by
  cases item <;> rfl

section Bodies

variable {μ : Type} {erase : μ → μ} {member : List String → Parser μ}

theorem agrees_bodyItem
    (hmember : ∀ before, Agrees (fun m m' => erase m = erase m') (member before) (member before)) :
    Agrees (fun i i' => i.map (Item.unplaced erase) = i'.map (Item.unplaced erase))
      (bodyItem member) (bodyItem member) := by
  refine agrees_comments.bind fun before _ hbefore => ?_
  subst hbefore
  refine .ifEat (by decide) (.pure rfl) <| .ifEat (by decide) ?_ <| .ifEat (by decide) ?_ <|
    agrees_peek.bind fun t t' ht => ?_
  · exact agrees_setting.bind fun _ _ hsetting => (agrees_expect (by decide)).bind fun _ _ _ =>
      .pure (by rw [hsetting])
  · exact agrees_skipStatement.bind fun _ _ _ => .pure rfl
  · have hread : Agrees (fun i i' => i.map (Item.unplaced erase) = i'.map (Item.unplaced erase))
        (do return some (.member (← member before))) (do return some (.member (← member before))) :=
      (hmember before).bind fun m m' hm => .pure (by simp [Item.unplaced, hm])
    rw [ht.is, ht.text]
    exact .ite ((agrees_failAt (R := Eq) rfl).bind fun _ _ _ => hread) hread

theorem agrees_definition
    (hmember : ∀ before, Agrees (fun m m' => erase m = erase m') (member before) (member before))
    (hsteady : ∀ before, Steady ["=", ";"] (member before)) (before : List String) :
    Agrees (fun d d' => d.unplaced erase = d'.unplaced erase) (definition member before)
      (definition member before) := by
  have hitems := (agrees_bodyItem hmember).collect (itemized_bodyItem hsteady).shorter
  refine agrees_identifier.bind fun _ _ hname => (agrees_expect (by decide)).bind fun _ _ _ =>
    agrees_trailingComment.bind fun _ _ hbehind => hitems.bind fun items items' hitems => .pure ?_
  have hignored : items.any Item.marks = items'.any Item.marks := by
    have hany := congrArg (List.any · Item.marks) hitems
    simpa [Function.comp_def, marks_unplaced] using hany
  have hmembers : (items.filterMap Item.member?).map erase =
      (items'.filterMap Item.member?).map erase := by
    have hmap := congrArg (List.filterMap Item.member?) hitems
    simpa [List.filterMap_map, Function.comp_def, member?_unplaced, List.map_filterMap] using hmap
  rw [Declaration.unplaced, Declaration.unplaced, hname.text, hbehind, hignored, hmembers]

end Bodies

/-! ### Statements -/

/-- A statement wherever it stands. -/
def Statement.unplaced : Statement → Statement
  | .header h => .header h
  | .message d => .message (d.unplaced FieldDecl.unplaced)
  | .enumeration d => .enumeration (d.unplaced ConstantDecl.unplaced)

theorem agrees_statement :
    Agrees (fun s s' => s.map Statement.unplaced = s'.map Statement.unplaced) statement
      statement := by
  refine agrees_comments.bind fun before _ hbefore => agrees_peek.bind fun t t' ht => ?_
  subst hbefore
  rw [ht.kind]
  have hpath : Agrees (fun s s' => s.map Statement.unplaced = s'.map Statement.unplaced)
      (do
        let path ← stringValue
        expect ";"
        return some (.header ⟨.importing, path, path⟩))
      (do
        let path ← stringValue
        expect ";"
        return some (.header ⟨.importing, path, path⟩)) :=
    agrees_stringValue.bind fun _ _ hpath => (agrees_expect (by decide)).bind fun _ _ _ =>
      .pure (by rw [hpath])
  refine .ite (.pure rfl) <| .ifEat (by decide) ?level <| .ifEat (by decide) ?package <|
    .ifEat (by decide) ?importing <| .ifEat (by decide) ?option <| .ifEat (by decide) ?message <|
    .ifEat (by decide) ?enumeration ?other
  case level =>
    exact (agrees_expect (by decide)).bind fun _ _ _ => agrees_stringValue.bind fun _ _ hvalue =>
      (agrees_expect (by decide)).bind fun _ _ _ => .pure (by rw [hvalue])
  case package =>
    exact agrees_identifier.bind fun _ _ hname => (agrees_expect (by decide)).bind fun _ _ _ =>
      .pure (by rw [hname.text])
  case importing =>
    exact (agrees_eat (by decide)).bind fun _ _ htaken => htaken ▸
      .ite ((agrees_eat (by decide)).bind fun _ _ _ => hpath) hpath
  case option =>
    exact agrees_setting.bind fun _ _ hsetting => (agrees_expect (by decide)).bind fun _ _ _ =>
      .pure (by rw [hsetting])
  case message =>
    exact (agrees_definition agrees_field steady_field before).bind
      fun _ _ hd => .pure (by simp [Statement.unplaced, hd])
  case enumeration =>
    exact (agrees_definition agrees_numbered steady_constant before).bind
      fun _ _ hd => .pure (by simp [Statement.unplaced, hd])
  case other => exact agrees_failAt (by rw [ht.text])

/-! ## 4. Documents -/

theorem unplaced_ofStatements (statements : List Statement) :
    (ofStatements statements).unplaced = ofStatements (statements.map Statement.unplaced) := by
  have hheader (s : Statement) : s.unplaced.header? = s.header? := by cases s <;> rfl
  have hmessage (s : Statement) :
      s.unplaced.message? = s.message?.map (Declaration.unplaced FieldDecl.unplaced) := by
    cases s <;> rfl
  have henumeration (s : Statement) :
      s.unplaced.enumeration? = s.enumeration?.map (Declaration.unplaced ConstantDecl.unplaced) := by
    cases s <;> rfl
  simp [ofStatements, Document.unplaced, List.filterMap_map, List.map_filterMap, hheader, hmessage,
    henumeration]

/-- Tokens of texts that are the same words and no comments make the same document, up to where its
declarations stand, or fail for the same cause. -/
theorem ofTokens_alike (hts : Scanned ts) (hwords : ts.map Token.word = ts'.map Token.word)
    (hplain : ∀ t ∈ ts, t.kind ≠ .comment) :
    (∃ d d', ofTokens ts = .ok d ∧ ofTokens ts' = .ok d' ∧ d.unplaced = d'.unplaced) ∨
      ∃ e e', ofTokens ts = .error (.fault e) ∧ ofTokens ts' = .error (.fault e') ∧
        e.cause = e'.cause := by
  have hexists {ts : List Token} (hts : Scanned ts) : ∃ last, ts.getLast? = some last :=
    Option.ne_none_iff_exists'.1 (mt List.getLast?_eq_none_iff.1 hts.ne_nil)
  obtain ⟨last, hlast⟩ := hexists hts
  obtain ⟨last', hlast'⟩ := hexists (scanned_of_words hts hwords)
  have hstatements := agrees_statement.collect itemized_statement.shorter
  have halike : Alike ⟨ts, last, 0⟩ ⟨ts', last', 0⟩ := ⟨hts, hwords, hplain⟩
  simp only [ofTokens, hlast, hlast']
  obtain ⟨l, l', _, _, hrun, hrun', hsame, -⟩ | ⟨e, e', hrun, hrun', hcause⟩ :=
    (hstatements.together halike).cases
  · rw [hrun, hrun']
    refine .inl ⟨_, _, rfl, rfl, ?_⟩
    rw [unplaced_ofStatements, unplaced_ofStatements, hsame]
  · rw [hrun, hrun']
    exact .inr ⟨e, e', rfl, rfl, hcause⟩

/-- Blanks do not matter. The tokens of a text are read again from every text that is made of them
with blanks between them. And texts without comments whose tokens are the same words make the same
document up to positions, or fail with the same message. -/
theorem layout_irrelevant {text : String} {ts : List Token} (h : Token.tokenize text = .ok ts) :
    (∀ cs, Token.Spaced ts.dropLast cs →
      ∃ ts', Token.tokenize (String.ofList cs) = .ok ts' ∧
        ts'.map Token.word = ts.map Token.word) ∧
    ∀ text' ts', Token.tokenize text' = .ok ts' → ts.map Token.word = ts'.map Token.word →
      (∀ t ∈ ts, t.kind ≠ .comment) →
      (∃ d d', ofTokens ts = .ok d ∧ ofTokens ts' = .ok d' ∧ d.unplaced = d'.unplaced) ∨
        ∃ e e', ofTokens ts = .error (.fault e) ∧ ofTokens ts' = .error (.fault e') ∧
          e.cause.message = e'.cause.message := by
  refine ⟨fun cs hcs => Token.tokenize_spaced h hcs, fun text' ts' _ hwords hplain => ?_⟩
  obtain hread | ⟨e, e', hread, hread', hcause⟩ :=
    ofTokens_alike (Token.scanned_of_tokenize h) hwords hplain
  · exact .inl hread
  · exact .inr ⟨e, e', hread, hread', by rw [hcause]⟩

/-- A text whose tokens stand close together. -/
def closeText : String :=
  "enum E\x7bA=-1;\x7d"

/-- The same words, spread over many lines. -/
def spreadText : String :=
  "enum\nE\t\x7b\n\n A\u3000= -1\n;  \x7d"

/-- The tokens of `closeText` before its end. -/
def closeTokens : List Token :=
  [⟨.identifier, "enum", ⟨1, 1⟩⟩, ⟨.identifier, "E", ⟨1, 6⟩⟩, ⟨.symbol, "\x7b", ⟨1, 7⟩⟩,
    ⟨.identifier, "A", ⟨1, 8⟩⟩, ⟨.symbol, "=", ⟨1, 9⟩⟩, ⟨.integer, "-1", ⟨1, 10⟩⟩,
    ⟨.symbol, ";", ⟨1, 12⟩⟩, ⟨.symbol, "\x7d", ⟨1, 13⟩⟩]

theorem spaced_closeTokens : Token.Spaced closeTokens spreadText.toList := by
  have hgap {text gap : List Char} (hne : gap ≠ []) (hall : gap.all Text.isBlank = true)
      (hslash : text.head? ≠ some '/') : Token.IsGap text gap := by
    refine ⟨hne, List.all_eq_true.1 hall, fun hline => ?_⟩
    obtain ⟨rest, rfl⟩ := hline
    exact absurd rfl hslash
  have hchars : spreadText.toList = "enum".toList ++ ("\n".toList ++ ("E".toList ++ ("\t".toList ++
      ("\x7b".toList ++ ("\n\n ".toList ++ ("A".toList ++ ("\u3000".toList ++ ("=".toList ++
      (" ".toList ++ ("-1".toList ++ ("\n".toList ++ (";".toList ++ ("  ".toList ++
      "\x7d".toList))))))))))))) := by decide
  rw [hchars]
  exact .cons (hgap (by decide) (by decide) (by decide)) <|
    .cons (hgap (by decide) (by decide) (by decide)) <|
    .cons (hgap (by decide) (by decide) (by decide)) <|
    .cons (hgap (by decide) (by decide) (by decide)) <|
    .cons (hgap (by decide) (by decide) (by decide)) <|
    .cons (hgap (by decide) (by decide) (by decide)) <|
    .cons (hgap (by decide) (by decide) (by decide)) .last

theorem layout_irrelevant_closeText :
    ∃ ts ts', Token.tokenize closeText = .ok ts ∧ Token.tokenize spreadText = .ok ts' ∧
      ts'.map Token.word = ts.map Token.word ∧
      ∃ d d', ofTokens ts = .ok d ∧ ofTokens ts' = .ok d' ∧ d.unplaced = d'.unplaced := by
  have hclose : Token.tokenize closeText = .ok (closeTokens ++ [⟨.endOfFile, "", ⟨1, 14⟩⟩]) := by
    decide +kernel
  obtain ⟨hrespaced, hreread⟩ := layout_irrelevant hclose
  rw [List.dropLast_concat] at hrespaced
  obtain ⟨ts', hspread, hwords⟩ := hrespaced _ spaced_closeTokens
  rw [String.ofList_toList] at hspread
  refine ⟨_, ts', hclose, hspread, hwords, ?_⟩
  have hplain : ∀ t ∈ closeTokens ++ [⟨.endOfFile, "", ⟨1, 14⟩⟩], t.kind ≠ .comment := by decide
  obtain hread | ⟨e, -, hfault, -⟩ := hreread spreadText ts' hspread hwords.symm hplain
  · exact hread
  · have hok : (ofTokens (closeTokens ++ [⟨.endOfFile, "", ⟨1, 14⟩⟩])).isOk = true := by
      decide +kernel
    rw [hfault] at hok
    cases hok

end SchemaGen.Document
