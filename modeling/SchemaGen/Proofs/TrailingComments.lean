import Mathlib.Data.List.Nodup
import SchemaGen.Proofs.Layout
import SchemaGen.Proofs.MarkedComments

/-!
# Comments at the end of a line

A comment that starts on the line where a part of the file ends seems to be about that part. If the
part declares something, the comment belongs to what it declares. The other parts, statements and
closing braces, have no place for comments behind them. Then the comment belongs to the part that
follows, and if it holds the deprecation marker, it marks what that part declares.

Results:
1. `Token.nodup_of_tokenize`: the tokens of a text differ from each other, since their positions do.
2. `eq_behind_of_trails`, `behind_of_name_eq_none`: where comments at the end of a line go.
3. `Document.trailing_comments`: this for the tokens of a text.
-/

namespace SchemaGen

open Grammar
open MarkedCommentsLemmas

/-! ## Definitions -/

/-- The comment `t` follows the words of `p`, which stands in front of `q`, and it starts on the
line of the last of these words. -/
structure Trails (p q : Part) (t : Token) : Prop where
  first : (p.behind ++ q.before).head? = some t
  line : ∃ last, p.words.getLast? = some last ∧ t.position.line = last.position.line

/-! ## 1. The tokens of a text differ -/

theorem Text.Position.eq_nil_of_counted {before cs : List Char}
    (h : counted (before ++ cs) = counted before) : cs = [] := by
  obtain ⟨hline, hcolumn⟩ := Text.Position.mk.inj h
  rw [List.count_append, Nat.add_left_cancel_iff, Nat.add_eq_left, List.count_eq_zero] at hline
  have hrow : ∀ c ∈ cs.reverse, decide (c ≠ '\n') = true := fun c hc =>
    decide_eq_true fun hnewline => hline (hnewline ▸ List.mem_reverse.1 hc)
  rw [List.reverse_append, List.takeWhile_append_of_pos hrow, List.length_append,
    Nat.add_left_cancel_iff, Nat.add_eq_right, List.length_reverse] at hcolumn
  exact List.length_eq_zero_iff.1 hcolumn

namespace Token

variable {ts : List Token} {before cs : List Char}

theorem Spread.exists_front (h : Spread before ts cs) :
    ∀ t ∈ ts, ∃ front, t.position = .counted (before ++ front) := by
  induction h with
  | last _ _ _ hposition => exact List.forall_mem_singleton.2 ⟨_, hposition⟩
  | cons _ _ hposition _ ih =>
    refine List.forall_mem_cons.2 ⟨⟨_, hposition⟩, fun t ht => ?_⟩
    obtain ⟨front, hfront⟩ := ih t ht
    rw [List.append_assoc, List.append_assoc] at hfront
    exact ⟨_, hfront⟩

theorem Spread.nodup (h : Spread before ts cs) (hscanned : Scanned ts) : ts.Nodup := by
  induction h with
  | last => exact List.nodup_singleton _
  | @cons before blanks rest t ts _ hkind hposition hmore ih =>
    refine List.nodup_cons.2 ⟨fun ht => ?_, ih (hscanned.tail hkind)⟩
    -- The token itself would stand behind its own text.
    obtain ⟨front, hfront⟩ := hmore.exists_front t ht
    rw [List.append_assoc, hposition] at hfront
    have hnil := List.append_eq_nil_iff.1 (Text.Position.eq_nil_of_counted hfront.symm)
    have hlexeme : t.IsLexeme :=
      (show Scanned ([t] ++ ts) from hscanned).isLexeme_of_mem hmore.ne_nil List.mem_cons_self
    obtain ⟨more, hlength⟩ := exists_more_of_isLexeme hlexeme
    exact absurd (lexemeLength?_pos hlength) (by simp [hnil.1])

theorem nodup_of_tokenize {text : String} (h : tokenize text = .ok ts) : ts.Nodup := by
  obtain ⟨lexemes, rest, -, -, hexplains⟩ := scan_explained [] text.toList
  change Explains [] text.toList lexemes rest (tokenize text) at hexplains
  rw [h] at hexplains
  exact hexplains.2.1.nodup (scanned_of_tokenize h)

end Token

/-! ## 2. Parts that follow each other -/

namespace TrailingCommentsLemmas

variable {level : Option DefinitionKind} {ts : List Token} {back : List Part} {p q : Part}

theorem tokens_of_reading {parts : List Part} (h : Reading level ts parts) :
    ts = parts.flatMap Part.tokens := by
  induction h with
  | ending => simp [Part.tokens]
  | step _ _ ih => rw [List.flatMap_cons, ← ih]

theorem attached_subset (p : Part) : p.attached ⊆ p.tokens := by
  intro t ht
  rcases List.mem_append.1 ht with hbefore | hbehind
  · exact List.mem_append_left _ (List.mem_append_left _ hbefore)
  · exact List.mem_append_right _ hbehind

variable {front : List Part} {words : List Token} {name semicolon : Token}
  {next : Option DefinitionKind} {rest : List Token}

/-- No token belongs to two parts. -/
theorem disjoint_attached (hts : ts.Nodup) (h : Reading level ts (front ++ p :: q :: back)) :
    p.attached.Disjoint q.attached := by
  rw [tokens_of_reading h, List.nodup_flatMap, List.pairwise_append, List.pairwise_cons] at hts
  have htokens : p.tokens.Disjoint q.tokens := hts.2.2.1.1 q List.mem_cons_self
  exact fun t hp hq => htokens (attached_subset p hp) (attached_subset q hq)

theorem exists_stands (h : Reading level ts (front ++ p :: q :: back)) :
    ∃ place rest next, Stands place p rest next ∧ Reading next rest (q :: back) := by
  generalize hparts : front ++ p :: q :: back = parts at h
  induction h generalizing front with
  | ending => cases front <;> simp at hparts
  | step hpart hrest ih =>
    cases front with
    | nil =>
      obtain ⟨rfl, rfl⟩ := List.cons.inj hparts
      exact ⟨_, _, _, hpart, hrest⟩
    | cons _ front => exact ih (List.cons.inj hparts).2

theorem exists_before (h : Reading level ts (q :: back)) : ∃ more, ts = q.before ++ more := by
  have hts := tokens_of_reading h
  rw [List.flatMap_cons, Part.tokens, List.append_assoc, List.append_assoc] at hts
  exact ⟨_, hts⟩

theorem getLast?_of_numberedWords (h : NumberedWords words name semicolon) :
    words.getLast? = some semicolon := by
  cases h
  exact List.getLast?_concat

theorem getLast?_of_memberWords {kind : DefinitionKind}
    (h : MemberWords kind words name semicolon) : words.getLast? = some semicolon := by
  cases h with
  | field hlabel htyped _ hnumbered =>
    have hlast := getLast?_of_numberedWords hnumbered
    cases hlabel <;> simp [htyped, List.getLast?_cons, List.getLast?_append, hlast]
  | constant hnumbered => exact getLast?_of_numberedWords hnumbered

/-- A part that declares nothing takes no comment behind it. -/
theorem behind_of_name_eq_none (h : Stands level p rest next) (hname : p.name = none) :
    p.behind = [] := by
  cases h with
  | header | option | reserved | closing => rfl
  | opening | member => cases hname

/-- A part that declares something looks for a comment on the line where it ends. -/
theorem behind_of_name_isSome (h : Stands level p rest next) (hname : p.name.isSome = true) :
    ∃ last, p.words.getLast? = some last ∧
      Behind last.position.line (p.behind ++ rest) (said p.behind) rest := by
  cases h with
  | header | option | reserved | closing => cases hname
  | opening _ _ _ _ hbehind => exact ⟨_, rfl, hbehind⟩
  | member _ _ hwords hbehind => exact ⟨_, getLast?_of_memberWords hwords, hbehind⟩

/-- The comment at the end of the line belongs to what is declared there. -/
theorem eq_behind_of_trails {line : Nat} {behind before more : List Token} {words : List String}
    {t : Token} (h : Behind line (behind ++ (before ++ more)) words (before ++ more))
    (hfirst : (behind ++ before).head? = some t) (hkind : t.kind = .comment)
    (hline : t.position.line = line) : behind = [t] := by
  obtain ⟨t', rfl, -⟩ | ⟨rfl, hnone⟩ := behind_cases h
  · rw [Option.some.inj hfirst]
  · have hhead : (before ++ more).head? = some t := by
      rw [List.head?_append, ← List.nil_append before, hfirst, Option.some_or]
    exact absurd ⟨hkind, hline⟩ (hnone t hhead)

section Neighbours

variable {level : Option DefinitionKind} {ts : List Token} {front back : List Part} {p q : Part}
  {t : Token} (h : Reading level ts (front ++ p :: q :: back)) (ht : Trails p q t)

include h ht

theorem mem_attached_of_name_eq_none (hname : p.name = none) : t ∈ q.attached := by
  obtain ⟨_, _, _, hpart, -⟩ := exists_stands h
  have hfirst := ht.first
  rw [behind_of_name_eq_none hpart hname, List.nil_append] at hfirst
  exact List.mem_append_left _ (List.mem_of_head? hfirst)

theorem mem_attached_of_name_isSome (hname : p.name.isSome = true) : t ∈ p.attached := by
  obtain ⟨_, rest, _, hpart, hrest⟩ := exists_stands h
  obtain ⟨more, rfl⟩ := exists_before hrest
  obtain ⟨last, hlast, hbehind⟩ := behind_of_name_isSome hpart hname
  obtain ⟨last', hlast', hline⟩ := ht.line
  obtain rfl := Option.some.inj (hlast.symm.trans hlast')
  have hkind : t.kind = .comment := by
    rcases List.mem_append.1 (List.mem_of_head? ht.first) with hp | hq
    · exact h.comments p (by simp) t (List.mem_append_right _ hp)
    · exact h.comments q (by simp) t (List.mem_append_left _ hq)
  rw [Part.attached, eq_behind_of_trails hbehind ht.first hkind hline]
  exact List.mem_append_right _ (List.mem_singleton_self t)

/-- The comment belongs to one of the two parts, and whether the first declares something decides to
which. -/
theorem mem_attached_iff (hts : ts.Nodup) :
    (t ∈ p.attached ↔ p.name.isSome = true) ∧ (t ∈ q.attached ↔ p.name = none) := by
  have hdisjoint := disjoint_attached hts h
  cases hname : p.name with
  | none =>
    have hq := mem_attached_of_name_eq_none h ht hname
    exact ⟨iff_of_false (fun hp => hdisjoint hp hq) nofun, iff_of_true hq rfl⟩
  | some name =>
    have hp := mem_attached_of_name_isSome h ht (by rw [hname]; rfl)
    exact ⟨iff_of_true hp rfl, iff_of_false (hdisjoint hp) nofun⟩

end Neighbours

end TrailingCommentsLemmas

open TrailingCommentsLemmas

/-! ## 3. The tokens of a text -/

namespace Document

/-- Comments at the end of a line, in a text that can be read. Where a part ends that declares
something, the head of a definition or a member, the comment belongs to it and not to the next part.
Where another statement or a closing brace ends, the comment belongs to the next part. What the next
part declares is skipped just if it is ignored, or this comment holds the deprecation marker and
belongs to it, or another of its comments holds the marker. -/
theorem trailing_comments {text : String} {ts : List Token} {d : Document}
    (hts : Token.tokenize text = .ok ts) (hd : ofTokens ts = .ok d) :
    (∃ parts, Reading none ts parts) ∧
    ∀ parts, Reading none ts parts →
      (parts.filterMap Part.declared).Perm d.declared ∧
      ∀ front p q back t, parts = front ++ p :: q :: back → Trails p q t →
        (t ∈ p.attached ↔ p.name.isSome = true) ∧ (t ∈ q.attached ↔ p.name = none) ∧
        ∀ (x : Described) position, q.declared = some (x.declaredAt position) →
          (x.isSkipped = true ↔ x.ignored = true ∨ (p.name = none ∧ IsMarked t.text) ∨
            ∃ t' ∈ q.attached, t' ≠ t ∧ IsMarked t'.text) := by
  obtain ⟨hreading, hdeclared⟩ := readings_of_ofTokens hts hd
  refine ⟨hreading, fun parts hparts => ⟨hdeclared parts hparts, ?_⟩⟩
  rintro front p q back t rfl ht
  obtain ⟨hp, hq⟩ := mem_attached_iff hparts ht (Token.nodup_of_tokenize hts)
  refine ⟨hp, hq, fun x position hx => ?_⟩
  rw [Described.isSkipped, Bool.or_eq_true, isDeprecated_iff_attached hx, ← hq]
  refine or_congr_right ⟨?_, ?_⟩
  · rintro ⟨t', ht', hmarked⟩
    by_cases heq : t' = t
    · exact .inl (heq ▸ ⟨ht', hmarked⟩)
    · exact .inr ⟨t', ht', heq, hmarked⟩
  · rintro (⟨hmem, hmarked⟩ | ⟨t', ht', -, hmarked⟩)
    · exact ⟨t, hmem, hmarked⟩
    · exact ⟨t', ht', hmarked⟩

/-- A comment behind a statement, and one behind the head of a definition. -/
def trailingText : String :=
  "package p; // @deprecated\nmessage M \x7b // a\n\x7d"

/-- The comment behind the statement. -/
def trailingMarker : Token := ⟨.comment, "// @deprecated", ⟨1, 12⟩⟩

/-- The comment behind the head. -/
def trailingRemark : Token := ⟨.comment, "// a", ⟨2, 13⟩⟩

def trailingStatement : Part where
  before := []
  words := [⟨.identifier, "package", ⟨1, 1⟩⟩, ⟨.identifier, "p", ⟨1, 9⟩⟩, ⟨.symbol, ";", ⟨1, 10⟩⟩]
  behind := []
  name := none

def trailingHead : Part where
  before := [trailingMarker]
  words := [⟨.identifier, "message", ⟨2, 1⟩⟩, ⟨.identifier, "M", ⟨2, 9⟩⟩,
    ⟨.symbol, "\x7b", ⟨2, 11⟩⟩]
  behind := [trailingRemark]
  name := some ⟨.identifier, "M", ⟨2, 9⟩⟩

def trailingBrace : Part where
  before := []
  words := [⟨.symbol, "\x7d", ⟨3, 1⟩⟩]
  behind := []
  name := none

def trailingEnd : Part where
  before := []
  words := [⟨.endOfFile, "", ⟨3, 2⟩⟩]
  behind := []
  name := none

def trailingParts : List Part :=
  [trailingStatement, trailingHead, trailingBrace, trailingEnd]

def trailingMessage : MessageDecl where
  name := "M"
  comment := some "@deprecated a"
  ignored := false
  members := []
  position := ⟨2, 9⟩

def trailingDocument : Document where
  headers := [⟨.package, "package", "p"⟩]
  messages := [trailingMessage]
  enums := []

theorem tokenize_trailingText :
    Token.tokenize trailingText = .ok (trailingParts.flatMap Part.tokens) := by
  decide +kernel

theorem ofTokens_trailingParts :
    ofTokens (trailingParts.flatMap Part.tokens) = .ok trailingDocument := by
  decide +kernel

theorem reading_trailingParts :
    Reading none (trailingParts.flatMap Part.tokens) trailingParts :=
  have hnone : Comments [] := nofun
  have hmarker : Comments [trailingMarker] := List.forall_mem_singleton.2 rfl
  have hword : Keyword DefinitionKind.message.keyword ⟨.identifier, "message", ⟨2, 1⟩⟩ := ⟨rfl, rfl⟩
  .step (.header hnone (.package ⟨rfl, rfl⟩ rfl ⟨rfl, rfl⟩)) <|
    .step (.opening hmarker hword rfl ⟨rfl, rfl⟩ (.comment rfl rfl)) <|
      .step (.closing hnone ⟨rfl, rfl⟩) (.ending hnone rfl)

theorem trails_trailingMarker : Trails trailingStatement trailingHead trailingMarker :=
  ⟨rfl, _, rfl, rfl⟩

theorem trails_trailingRemark : Trails trailingHead trailingBrace trailingRemark :=
  ⟨rfl, _, rfl, rfl⟩

theorem declared_trailingHead :
    trailingHead.declared = some (trailingMessage.declaredAt trailingMessage.position) := by
  decide +kernel

theorem trailing_comments_trailingText :
    Token.tokenize trailingText = .ok (trailingParts.flatMap Part.tokens) ∧
      ofTokens (trailingParts.flatMap Part.tokens) = .ok trailingDocument ∧
      Reading none (trailingParts.flatMap Part.tokens) trailingParts ∧
      (trailingRemark ∈ trailingHead.attached ∧ trailingRemark ∉ trailingBrace.attached) ∧
      (trailingMarker ∉ trailingStatement.attached ∧ trailingMarker ∈ trailingHead.attached) ∧
      (trailingMessage.isSkipped = true ↔ trailingMessage.ignored = true ∨
        (trailingStatement.name = none ∧ IsMarked trailingMarker.text) ∨
        ∃ t ∈ trailingHead.attached, t ≠ trailingMarker ∧ IsMarked t.text) := by
  obtain ⟨-, hall⟩ := trailing_comments tokenize_trailingText ofTokens_trailingParts
  obtain ⟨-, hneighbours⟩ := hall trailingParts reading_trailingParts
  obtain ⟨hhead, hbrace, -⟩ := hneighbours [trailingStatement] _ _ [trailingEnd] _ rfl
    trails_trailingRemark
  obtain ⟨hstatement, hnext, hskipped⟩ := hneighbours [] _ _ [trailingBrace, trailingEnd] _ rfl
    trails_trailingMarker
  exact ⟨tokenize_trailingText, ofTokens_trailingParts, reading_trailingParts,
    ⟨hhead.2 rfl, mt hbrace.1 nofun⟩, ⟨mt hstatement.1 nofun, hnext.2 rfl⟩,
    hskipped _ _ declared_trailingHead⟩

/-- A comment behind a statement is taken for one of the next declaration. The marker in it, and
nothing else, has that declaration skipped. -/
theorem trailing_marker_skips_next :
    Token.tokenize trailingText = .ok (trailingParts.flatMap Part.tokens) ∧
      ofTokens (trailingParts.flatMap Part.tokens) = .ok trailingDocument ∧
      Reading none (trailingParts.flatMap Part.tokens) trailingParts ∧
      Trails trailingStatement trailingHead trailingMarker ∧
      trailingStatement.name = none ∧ trailingMarker ∈ trailingHead.attached ∧
      trailingHead.declared = some (trailingMessage.declaredAt trailingMessage.position) ∧
      trailingMessage.ignored = false ∧ trailingMessage.isSkipped = true ∧
      ∀ t ∈ trailingHead.attached, t ≠ trailingMarker → ¬ IsMarked t.text := by
  have hremark : ¬ IsMarked trailingRemark.text := by
    rw [IsMarked, ← occursIn_iff]
    decide +kernel
  have hothers : ∀ t ∈ trailingHead.attached, t ≠ trailingMarker → ¬ IsMarked t.text :=
    List.forall_mem_cons.2 ⟨absurd rfl, List.forall_mem_singleton.2 fun _ => hremark⟩
  exact ⟨tokenize_trailingText, ofTokens_trailingParts, reading_trailingParts,
    trails_trailingMarker, rfl, List.mem_cons_self, declared_trailingHead, rfl,
    by decide +kernel, hothers⟩

end Document

end SchemaGen
