import SchemaGen.Proofs.Recognition
import Mathlib.Logic.Function.Iterate
import Mathlib.Logic.Relation

/-!
# Readings without an end

Behind the last token the cursor keeps showing it, so a loop that waits for another token there
never ends. Only the loop over comments and the one over reserved numbers do. What `collect` reads
again and again moves on each time: a statement, an item of a body or a setting has two different
words in it, and the last token cannot be both.

Results:
1. `forever_iff`: a loop never ends if all tokens ahead and the last one keep it going.
2. `Proceeds.bind`, `Itemized.ifEat`, `Itemized.collect`: where readers that are put together run
   forever.
3. `ofTokens_endless_iff`: the tokens that are read without an end.
-/

namespace SchemaGen.Document

variable {α β μ : Type} {c c' : Cursor} {p : Token → Bool}

/-! ## Definitions -/

/-- At `c`, a loop that goes on while the cursor shows tokens of which `p` holds never ends. -/
def Cursor.Forever (p : Token → Bool) (c : Cursor) : Prop :=
  ∀ n, p (Cursor.next^[n] c).current = true

/-- Items that `item` reads, one behind the other, lead from one cursor to another. -/
def Leads (item : Parser (Option α)) : Cursor → Cursor → Prop :=
  Relation.ReflTransGen fun c c' => ∃ a, item c = .ok (some a, c')

/-- In a body, only comments are left, or reserved numbers without a semicolon behind them. -/
def EndlessItem (c : Cursor) : Prop :=
  c.Forever Token.isComment ∨ ∃ words d, comments c = .ok (words, d) ∧
    d.current.is "reserved" = true ∧ d.next.Forever fun t => !endsStatement t

/-- Behind the keyword of a definition, the body comes to such a place. -/
def EndlessBody (member : List String → Parser μ) (c : Cursor) : Prop :=
  ∃ name c₁, identifier c = .ok (name, c₁) ∧ ∃ u c₂, expect "\x7b" c₁ = .ok (u, c₂) ∧
    ∃ behind c₃, trailingComment c₂ = .ok (behind, c₃) ∧
      ∃ d, Leads (bodyItem member) c₃ d ∧ EndlessItem d

/-- Only comments are left, or a definition with such a body. -/
def EndlessStatement (c : Cursor) : Prop :=
  c.Forever Token.isComment ∨ ∃ before d, comments c = .ok (before, d) ∧
    d.current.kind ≠ .endOfFile ∧
    (d.current.is "message" = true ∧ EndlessBody field d.next ∨
      d.current.is "enum" = true ∧ EndlessBody constant d.next)

/-- Where `p` runs forever, it is just where `Stuck` says, and the last token ends no statement.
Else `p` moves the cursor on, or there are no tokens ahead and the last one is each of the words
`ws`. -/
structure Proceeds (Stuck : Cursor → Prop) (ws : List String) (p : Parser α) : Prop where
  endless : ∀ c, p c = .error .endless ↔ Stuck c
  unended : ∀ {c}, Stuck c → endsStatement c.last = false
  moves : ∀ {c a c'}, p c = .ok (a, c') → c'.last = c.last ∧
    (c'.ahead.length < c.ahead.length ∨
      c'.ahead.length = c.ahead.length ∧ ∀ w ∈ ws, c.ahead = [] ∧ c.last.is w = true)

/-- `p` never runs forever. -/
abbrev Steady (ws : List String) (p : Parser α) : Prop :=
  Proceeds (fun _ => False) ws p

/-- With each item that it reads, `item` moves the cursor on. -/
structure Itemized (Stuck : Cursor → Prop) (item : Parser (Option α)) : Prop
    extends Proceeds Stuck [] item where
  shorter : ∀ {c a c'}, item c = .ok (some a, c') → c'.ahead.length < c.ahead.length

/-! ## 1. Loops over tokens -/

theorem forever_iff : c.Forever p ↔ (∀ t ∈ c.ahead, p t = true) ∧ p c.last = true := by
  obtain ⟨ts, last, line⟩ := c
  induction ts generalizing line with
  | nil =>
    have hstays (n line : Nat) : (Cursor.next^[n] ⟨[], last, line⟩).current = last := by
      induction n generalizing line with
      | zero => rfl
      | succ n ih => exact ih 0
    simp [Cursor.Forever, hstays]
  | cons t ts ih =>
    have hstep : (Cursor.mk (t :: ts) last line).Forever p ↔
        p t = true ∧ (Cursor.mk ts last t.position.line).Forever p := by
      constructor
      · exact fun h => ⟨h 0, fun n => h (n + 1)⟩
      · rintro ⟨h, hrest⟩ (_ | n)
        · exact h
        · exact hrest n
    rw [hstep, ih, List.forall_mem_cons, and_assoc]

/-- Where passing over tokens comes to. -/
theorem skip_current_iff (p : Token → Bool) (c : Cursor) :
    (p (c.skip (c.ahead.takeWhile p)).current = true ↔ c.Forever p) ∧
      (c.skip (c.ahead.takeWhile p)).last = c.last ∧
      (c.skip (c.ahead.takeWhile p)).ahead.length ≤ c.ahead.length := by
  obtain ⟨line, hskip⟩ := skip_takeWhile p c
  obtain ⟨hsplit, hall, hnot⟩ : c.ahead = _ ++ c.ahead.dropWhile p ∧ _ := takeWhile_iff.2 ⟨rfl, rfl⟩
  rw [hskip, forever_iff]
  refine ⟨?_, rfl, (List.dropWhile_sublist p).length_le⟩
  show p ((c.ahead.dropWhile p).headD c.last) = true ↔ _
  rcases hdrop : c.ahead.dropWhile p with _ | ⟨t, rest⟩
  · rw [hdrop, List.append_nil] at hsplit
    exact (and_iff_right (hsplit ▸ hall)).symm
  · have ht := hnot t (by rw [hdrop]; rfl)
    exact iff_of_false ht fun h => ht (h.1 t ((List.dropWhile_sublist p).subset (by simp [hdrop])))

/-! ## 2. Readers that are put together -/

variable {x y : Parser α} {f : α → Parser β} {ws vs : List String} {v w : String}
  {S S' : Cursor → Prop} {T : α → Cursor → Prop} {item other : Parser (Option α)}

theorem Proceeds.congr (h : Proceeds S ws x) (hS : ∀ c, S c ↔ S' c) : Proceeds S' ws x where
  endless c := (h.endless c).trans (hS c)
  unended hc := h.unended ((hS _).2 hc)
  moves := h.moves

theorem Proceeds.forget (h : Proceeds S ws x) : Proceeds S [] x :=
  { h with
    moves := fun hrun => (h.moves hrun).imp_right (.imp_right fun hstays => ⟨hstays.1, nofun⟩) }

theorem Proceeds.bind (hx : Proceeds S ws x) (hf : ∀ a, Proceeds (T a) vs (f a)) :
    Proceeds (fun c => S c ∨ ∃ a d, x c = .ok (a, d) ∧ T a d) (ws ++ vs) (x >>= f) where
  endless c := by
    show (x c >>= fun r => f r.1 r.2) = _ ↔ _
    rw [← hx.endless]
    simp only [← (hf _).endless]
    rcases x c with e | ⟨a, d⟩ <;> simp [Bind.bind, Except.bind]
  unended := by
    rintro c (hc | ⟨a, d, hrun, hd⟩)
    · exact hx.unended hc
    · exact (hx.moves hrun).1 ▸ (hf a).unended hd
  moves h := by
    obtain ⟨⟨a, d⟩, hfirst, hsecond⟩ := FillingLemmas.bind_eq_ok.1 h
    have hd := hx.moves hfirst
    have hc' := (hf a).moves hsecond
    grind

theorem Steady.bind (hx : Steady ws x) (hf : ∀ a, Steady vs (f a)) : Steady (ws ++ vs) (x >>= f) :=
  (Proceeds.bind hx hf).congr (by simp)

theorem Steady.ite {p : Prop} [Decidable p] (hx : Steady ws x) (hy : Steady ws y) :
    Steady ws (if p then x else y) := by
  split
  · exact hx
  · exact hy

/-- What comes of a reader that looks at one token only. -/
inductive Glances (ws : List String) (c : Cursor) : Except ParseError (α × Cursor) → Prop
  | fails (e : SyntaxError) : Glances ws c (.error (.fault e))
  | stays (a : α) (h : ws = []) : Glances ws c (.ok (a, c))
  | takes (a : α) (h : ∀ w ∈ ws, c.current.is w = true) : Glances ws c (.ok (a, c.next))

theorem steady_of_glances (h : ∀ c, Glances ws c (x c)) : Steady ws x where
  endless c := by
    refine ⟨fun hrun => ?_, False.elim⟩
    have hc := hrun ▸ h c
    cases hc
  unended := False.elim
  moves {c a c'} hrun := by
    have hc := hrun ▸ h c
    cases hc with
    | stays _ hws => simp [hws]
    | takes _ hws =>
      obtain ⟨_ | ⟨t, ts⟩, last, line⟩ := c
      · exact ⟨rfl, .inr ⟨rfl, fun w hw => ⟨rfl, hws w hw⟩⟩⟩
      · exact ⟨rfl, .inl (Nat.lt_succ_self _)⟩

theorem steady_pure (a : α) : Steady [] (pure a) :=
  steady_of_glances fun _ => .stays a rfl

theorem steady_failAt (t : Token) (cause : SyntaxCause) : Steady [] (failAt t cause : Parser α) :=
  steady_of_glances fun _ => .fails _

theorem steady_peek : Steady [] peek :=
  steady_of_glances fun _ => .stays _ rfl

theorem steady_eat (w : String) : Steady [] (eat w) := by
  refine steady_of_glances fun c => ?_
  rw [eat_run]
  split
  · exact .takes _ nofun
  · exact .stays _ rfl

theorem steady_expect (w : String) : Steady [w] (expect w) := by
  refine steady_of_glances fun c => ?_
  rw [expect, bind_run (eat_run w c)]
  cases his : c.current.is w
  · exact .fails _
  · exact .takes () (by simpa using his)

theorem steady_token (kind : TokenKind) (what : Expected) : Steady [] (token kind what) := by
  refine steady_of_glances fun c => ?_
  show Glances [] c ((if c.current.kind = kind then (do modify Cursor.next; pure c.current)
    else unexpected what : Parser Token) c)
  split
  · exact .takes _ nofun
  · exact .fails _

theorem steady_optionValue : Steady [] optionValue := by
  refine steady_of_glances fun c => ?_
  rw [optionValue, bind_run (show peek c = .ok (c.current, c) from rfl)]
  cases c.current.kind
  case string | identifier | integer => exact .takes _ nofun
  all_goals exact .fails _

theorem steady_trailingComment : Steady [] trailingComment := by
  refine steady_of_glances fun c => ?_
  rw [trailingComment_run]
  split
  · exact .takes _ nofun
  · exact .stays _ rfl

theorem proceeds_comments : Proceeds (·.Forever Token.isComment) [] comments where
  endless c := by
    rw [comments_run, ← (skip_current_iff _ c).1]
    split <;> simp [*]
  unended h := by
    have hkind : _ = TokenKind.comment := of_decide_eq_true (forever_iff.1 h).2
    simp [endsStatement, Token.is, hkind]
  moves {c a c'} h := by
    have hskip := (skip_current_iff Token.isComment c).2
    rw [comments_run] at h
    split at h
    · cases h
    · cases h
      grind

theorem proceeds_skipStatement :
    Proceeds (·.Forever fun t => !endsStatement t) [";"] skipStatement where
  endless c := by
    rw [skipStatement_run, ← (skip_current_iff _ c).1]
    split <;> simp [*, (steady_expect ";").endless]
  unended h := by simpa using (forever_iff.1 h).2
  moves {c a c'} h := by
    have hskip := (skip_current_iff (fun t => !endsStatement t) c).2
    rw [skipStatement_run] at h
    split at h
    · have hmoves := (steady_expect ";").moves h
      grind
    · cases h

/-! ### Items -/

theorem eq_of_is {t : Token} (hw : t.is w = true) (hv : t.is v = true) : w = v := by
  simp only [Token.is, Bool.and_eq_true, beq_iff_eq] at hw hv
  exact hw.2.symm.trans hv.2

theorem Itemized.congr (h : Itemized S item) (hS : ∀ c, S c ↔ S' c) : Itemized S' item :=
  ⟨h.toProceeds.congr hS, h.shorter⟩

theorem Itemized.bind {f : α → Parser (Option β)} (hx : Proceeds S ws x)
    (hf : ∀ a, Itemized (T a) (f a)) :
    Itemized (fun c => S c ∨ ∃ a d, x c = .ok (a, d) ∧ T a d) (x >>= f) where
  toProceeds := (hx.bind fun a => (hf a).toProceeds).forget
  shorter hrun := by
    obtain ⟨⟨a, d⟩, hfirst, hsecond⟩ := FillingLemmas.bind_eq_ok.1 hrun
    have hd := hx.moves hfirst
    have hlt := (hf a).shorter hsecond
    omega

theorem Itemized.ite {p : Prop} [Decidable p] (hitem : Itemized S item)
    (hother : Itemized S' other) :
    Itemized (fun c => if p then S c else S' c) (if p then item else other) := by
  split
  · exact hitem
  · exact hother

/-- The last token is not two words at once, so an item with another word behind `w` moves the
cursor on. -/
theorem Itemized.ifEat (hitem : Proceeds S ws item)
    (hwords : ∀ {c a c'}, item c = .ok (some a, c') → ∃ v ∈ ws, v ≠ w)
    (hother : Itemized S' other) :
    Itemized (fun c => if c.current.is w then S c.next else S' c)
      (do if ← eat w then item else other) := by
  have hrun (c : Cursor) : (do if ← eat w then item else other : Parser (Option α)) c =
      if c.current.is w then item c.next else other c := by
    rw [bind_run (eat_run w c)]
    split <;> rfl
  refine ⟨⟨fun c => ?_, fun {c} h => ?_, fun {c a c'} h => ?_⟩, fun {c a c'} h => ?_⟩
  · rw [hrun]
    split
    · exact hitem.endless c.next
    · exact hother.endless c
  · split at h
    · exact hitem.unended (c := c.next) h
    · exact hother.unended h
  · rw [hrun] at h
    split at h
    · have hmoves := hitem.moves h
      have hle : c.next.ahead.length ≤ c.ahead.length := by simp [Cursor.next]
      have hlast : c.next.last = c.last := rfl
      grind
    · exact hother.moves h
  · rw [hrun] at h
    split at h
    next his =>
      obtain ⟨v, hv, hne⟩ := hwords h
      have hmoves := (hitem.moves h).2
      obtain ⟨_ | ⟨t, ts⟩, last, line⟩ := c
      · exact absurd (eq_of_is ((hmoves.resolve_left nofun).2 v hv).2 his) hne
      · exact Nat.lt_succ_of_le (hmoves.elim Nat.le_of_lt fun hstays => Nat.le_of_eq hstays.1)
    · exact hother.shorter h

theorem Itemized.collect (h : Itemized S item) :
    Proceeds (fun c => ∃ d, Leads item c d ∧ S d) [] (collect item) where
  endless c := by
    constructor
    · intro hrun
      induction hn : c.ahead.length using Nat.strongRecOn generalizing c with
      | ind n ih =>
        rw [Document.collect] at hrun
        split at hrun
        next e hitem =>
          cases hrun
          exact ⟨c, .refl, (h.endless c).1 hitem⟩
        · cases hrun
        next a next hitem =>
          have hlt := h.shorter hitem
          rw [if_pos hlt] at hrun
          split at hrun
          next e hrest =>
            cases hrun
            obtain ⟨d, hleads, hd⟩ := ih _ (hn ▸ hlt) _ hrest rfl
            exact ⟨d, .head ⟨a, hitem⟩ hleads, hd⟩
          · cases hrun
    · rintro ⟨d, hleads, hd⟩
      induction hleads using Relation.ReflTransGen.head_induction_on with
      | refl => rw [Document.collect, (h.endless d).2 hd]
      | head hstep _ ih =>
        obtain ⟨a, hitem⟩ := hstep
        rw [Document.collect, hitem]
        simp only [if_pos (h.shorter hitem), ih]
  unended := by
    rintro c ⟨d, hleads, hd⟩
    induction hleads using Relation.ReflTransGen.head_induction_on with
    | refl => exact h.unended hd
    | head hstep _ ih =>
      obtain ⟨a, hitem⟩ := hstep
      exact (h.moves hitem).1 ▸ ih
  moves {c items c'} hrun := by
    induction hn : c.ahead.length using Nat.strongRecOn generalizing c items with
    | ind n ih =>
      obtain ⟨hitem, -⟩ | ⟨a, next, others, hitem, hlt, hrest, -⟩ := collect_eq_ok_iff.1 hrun
      · exact hn ▸ h.moves hitem
      · have hnext := h.moves hitem
        have hc' := ih _ (hn ▸ hlt) hrest rfl
        grind

/-! ## 3. Schema texts -/

theorem steady_stringValue : Steady [] stringValue :=
  (steady_token _ _).bind fun _ => steady_pure _

theorem steady_integerValue : Steady [] integerValue := by
  refine (steady_token _ _).bind fun t => ?_
  split
  · exact steady_pure _
  · exact steady_failAt _ _

theorem steady_setting : Steady ["="] setting :=
  (steady_token _ _).bind fun _ => (steady_expect _).bind fun _ =>
    steady_optionValue.bind fun _ => steady_pure _

theorem itemized_nextSetting : Itemized (fun _ => False)
    (do if ← eat "," then return some (← setting) else return none) :=
  (Itemized.ifEat (steady_setting.bind fun _ => steady_pure _)
    (fun _ => ⟨"=", by simp, by decide⟩) ⟨steady_pure none, nofun⟩).congr (by simp)

theorem steady_fieldSettings : Steady [] fieldSettings := by
  have hothers : Steady [] (collect _) := itemized_nextSetting.collect.congr (by simp)
  exact (steady_eat _).bind fun _ => (steady_pure _).ite <| Proceeds.forget <|
    steady_setting.bind fun _ => hothers.bind fun _ => (steady_expect _).bind fun _ => steady_pure _

theorem steady_fieldType (cardinality : Cardinality) : Steady [] (fieldType cardinality) :=
  (steady_eat _).bind fun _ => Steady.ite
    (Proceeds.forget <| (steady_expect "<").bind fun _ => (steady_token _ _).bind fun _ =>
      (steady_expect ",").bind fun _ => (steady_token _ _).bind fun _ =>
      (steady_expect ">").bind fun _ => Steady.ite
        (steady_peek.bind fun _ => (steady_failAt _ _).bind fun _ => steady_pure _)
        (steady_pure _))
    ((steady_token _ _).bind fun _ => steady_pure _)

theorem steady_fieldCardinality : Steady [] fieldCardinality :=
  (steady_eat _).bind fun _ => (steady_pure _).ite <| (steady_eat _).bind fun _ =>
    (steady_pure _).ite <| (steady_eat _).bind fun _ => steady_pure _

theorem steady_constant (before : List String) : Steady ["=", ";"] (constant before) :=
  (steady_token _ _).bind fun _ => (steady_expect _).bind fun _ => steady_integerValue.bind fun _ =>
    steady_fieldSettings.bind fun _ => (steady_expect _).bind fun _ =>
    steady_trailingComment.bind fun _ => steady_pure _

theorem steady_field (before : List String) : Steady ["=", ";"] (field before) :=
  steady_fieldCardinality.bind fun _ => (steady_fieldType _).bind fun _ =>
    (steady_constant before).bind fun _ => steady_pure _

variable {member : List String → Parser μ}
  (hmember : ∀ before, Steady ["=", ";"] (member before))

include hmember

theorem itemized_bodyItem : Itemized EndlessItem (bodyItem member) := by
  have hwords {x : Parser (Option (Item μ))} (hx : Steady ["=", ";"] x) :
      Itemized (fun _ => False) x := by
    refine ⟨hx.forget, fun hrun => ?_⟩
    obtain ⟨-, hlt | ⟨-, hlast⟩⟩ := hx.moves hrun
    · exact hlt
    · exact absurd (eq_of_is (hlast "=" (by simp)).2 (hlast ";" (by simp)).2) (by decide)
  unfold bodyItem
  refine (Itemized.bind proceeds_comments fun before => .ifEat (steady_pure none) nofun <|
    .ifEat (steady_setting.bind fun _ => (steady_expect ";").bind fun _ => steady_pure _)
      (fun _ => ⟨";", by simp, by decide⟩) <|
    .ifEat (proceeds_skipStatement.bind fun _ => steady_pure _)
      (fun _ => ⟨";", by simp, by decide⟩) <|
    hwords <| steady_peek.bind fun _ => .ite
      ((steady_failAt _ _).bind fun _ => (hmember before).bind fun _ => steady_pure _)
      ((hmember before).bind fun _ => steady_pure _)).congr fun c => ?_
  refine or_congr .rfl (exists₂_congr fun before d => and_congr_right fun _ => ?_)
  grind [Token.is]

theorem proceeds_definition (before : List String) :
    Proceeds (EndlessBody member) ["\x7b"] (definition member before) :=
  (Proceeds.bind (steady_token _ _) fun _ => Proceeds.bind (steady_expect _) fun _ =>
    Proceeds.bind steady_trailingComment fun _ => (itemized_bodyItem hmember).collect.bind fun _ =>
    steady_pure _).congr (by simp [EndlessBody, identifier])

omit hmember

theorem itemized_statement : Itemized EndlessStatement statement := by
  have hpath : Steady [";"] (do
      let path ← stringValue
      expect ";"
      return some (Statement.header ⟨.importing, path, path⟩)) :=
    steady_stringValue.bind fun _ => (steady_expect _).bind fun _ => steady_pure _
  unfold statement
  refine (Itemized.bind proceeds_comments fun before => Itemized.bind steady_peek fun t =>
    .ite ⟨steady_pure none, nofun⟩ <|
    .ifEat ((steady_expect "=").bind fun _ => steady_stringValue.bind fun _ =>
      (steady_expect ";").bind fun _ => steady_pure _) (fun _ => ⟨";", by simp, by decide⟩) <|
    .ifEat ((steady_token _ _).bind fun _ => (steady_expect ";").bind fun _ => steady_pure _)
      (fun _ => ⟨";", by simp, by decide⟩) <|
    .ifEat ((steady_eat _).bind fun _ => Steady.ite ((steady_eat _).bind fun _ => hpath) hpath)
      (fun _ => ⟨";", by simp, by decide⟩) <|
    .ifEat (steady_setting.bind fun _ => (steady_expect ";").bind fun _ => steady_pure _)
      (fun _ => ⟨";", by simp, by decide⟩) <|
    .ifEat ((proceeds_definition steady_field before).bind fun _ => steady_pure _)
      (fun _ => ⟨"\x7b", by simp, by decide⟩) <|
    .ifEat ((proceeds_definition steady_constant before).bind fun _ => steady_pure _)
      (fun _ => ⟨"\x7b", by simp, by decide⟩) <|
    ⟨steady_failAt _ _, nofun⟩).congr fun c => ?_
  refine or_congr .rfl (exists₂_congr fun before d => and_congr_right fun _ => ?_)
  -- the keywords exclude each other
  rw [show peek d = .ok (d.current, d) from rfl]
  grind [Token.is]

/-- Tokens are read without an end just if statements and the items of a body lead to a place where
one of two loops never ends: only comments are left, or reserved numbers without a semicolon. The
last token is then neither a semicolon nor the end of the file. -/
theorem ofTokens_endless_iff (ts : List Token) :
    ofTokens ts = .error .endless ↔
      ∃ last c, ts.getLast? = some last ∧ endsStatement last = false ∧
        Leads statement ⟨ts, last, 0⟩ c ∧ EndlessStatement c := by
  cases hlast : ts.getLast? with
  | none => simp [ofTokens, hlast]
  | some last =>
    have hstatements := itemized_statement.collect
    have hread : ofTokens ts = .error .endless ↔
        collect statement ⟨ts, last, 0⟩ = .error .endless := by
      simp only [ofTokens, hlast]
      rcases collect statement ⟨ts, last, 0⟩ with e | ⟨statements, fin⟩ <;> simp
    rw [hread, hstatements.endless]
    constructor
    · rintro ⟨c, hleads, hc⟩
      have hends := hstatements.unended (c := ⟨ts, last, 0⟩) ⟨c, hleads, hc⟩
      exact ⟨last, c, rfl, hends, hleads, hc⟩
    · rintro ⟨_, c, ⟨⟩, -, hleads, hc⟩
      exact ⟨c, hleads, hc⟩

/-- A message that breaks off behind `reserved`, and a comment alone. -/
theorem breaking_off_endless :
    ofTokens [⟨.identifier, "message", ⟨1, 1⟩⟩, ⟨.identifier, "M", ⟨1, 9⟩⟩,
        ⟨.symbol, "\x7b", ⟨1, 11⟩⟩, ⟨.identifier, "reserved", ⟨1, 13⟩⟩] = .error .endless ∧
      ofTokens [⟨.comment, "// c", ⟨1, 1⟩⟩] = .error .endless := by
  decide +kernel

end SchemaGen.Document
