import SchemaGen.Proofs.FileParts
import SchemaGen.Proofs.ReadDocument

/-!
# Words that survive in comments

What a comment says is cut out of its characters: the marks that open and close it, the ends of its
lines, stars and blanks at the ends of lines are dropped, and what is left is put together with
single spaces. A word without blanks, slashes and stars is neither cut nor put together by that, so
it stands in the comment of a declaration just if it stands in one of the comments that belong to
the declaration. The deprecation marker is such a word.

Results:
1. `infix_append_iff_right`, `infix_intercalate_iff`: a word in a text that is put together from
   others.
2. `infix_commentChars_iff`: a word in what one comment says.
3. `infix_joinComments_iff`: a word in the comment of a declaration.
4. `Document.comments_normal`: the comments of a document, and what is deprecated.
-/

namespace SchemaGen

open Text (isBlank occursIn split trimBlanks trimWhile)

/-! ## Definitions -/

/-- A word that has nothing in common with what is dropped from comments or put into them. -/
structure IsSolid (word : List Char) : Prop where
  ne_nil : word ≠ []
  blank : ∀ c ∈ word, isBlank c = false
  slash : '/' ∉ word
  star : '*' ∉ word

/-- The text holds the deprecation marker. -/
def IsMarked (text : String) : Prop :=
  deprecationMarker.toList <:+: text.toList

theorem IsSolid.blank_not_mem {word : List Char} (h : IsSolid word) {c : Char}
    (hc : isBlank c = true) : c ∉ word := by
  intro hmem
  rw [h.blank c hmem] at hc
  cases hc

/-! ## 1. Words in texts -/

namespace MarkedCommentsLemmas

theorem occursIn_iff {part cs : List Char} : occursIn part cs = true ↔ part <:+: cs := by
  induction cs with
  | nil => simp [occursIn]
  | cons c cs ih =>
    rw [occursIn, Bool.or_eq_true, List.isPrefixOf_iff_prefix, ih, List.infix_cons_iff]

section Words

variable {word : List Char} (hword : word ≠ [])

include hword

/-- Characters in front of a text that are foreign to a word do not make the word. -/
theorem infix_append_iff_right {xs : List Char} (h : ∀ c ∈ xs, c ∉ word) (ys : List Char) :
    word <:+: xs ++ ys ↔ word <:+: ys := by
  refine ⟨fun hinfix => ?_, fun hinfix => hinfix.trans (List.suffix_append xs ys).isInfix⟩
  -- A word across the border would begin with one of these characters.
  have hnone {front : List Char} (hfront : front <:+: xs) (hpart : front ⊆ word) : front = [] :=
    List.eq_nil_iff_forall_not_mem.2 fun c hc => h c (hfront.subset hc) (hpart hc)
  rcases List.infix_append_iff.1 hinfix with hxs | hys | ⟨front, back, rfl, hfront, hback⟩
  · exact absurd (hnone hxs (List.Subset.refl word)) hword
  · exact hys
  · rw [hnone hfront.isInfix (List.subset_append_left front back)]
    exact hback.isInfix

theorem infix_append_iff_left {ys : List Char} (h : ∀ c ∈ ys, c ∉ word) (xs : List Char) :
    word <:+: xs ++ ys ↔ word <:+: xs := by
  have hreverse : word.reverse <:+: ys.reverse ++ xs.reverse ↔ word.reverse <:+: xs.reverse :=
    infix_append_iff_right (by simpa using hword) (by simpa using h) xs.reverse
  rwa [← List.reverse_append, List.reverse_infix, List.reverse_infix] at hreverse

/-- A word without the separator stands in one of the texts that are put together. -/
theorem infix_intercalate_iff {sep : Char} (hsep : sep ∉ word) (texts : List (List Char)) :
    word <:+: [sep].intercalate texts ↔ ∃ text ∈ texts, word <:+: text := by
  induction texts with
  | nil => simp [List.intercalate_nil, hword]
  | cons text texts ih =>
    cases texts with
    | nil => simp
    | cons next texts =>
      rw [List.intercalate_cons_cons, List.exists_mem_cons_iff, ← ih]
      refine ⟨fun hinfix => ?_, ?_⟩
      · -- The separator would stand in a word across the border.
        rcases List.infix_append_iff.1 hinfix with
          hleft | hright | ⟨front, back, rfl, hfront, hback⟩
        · rw [infix_append_iff_left hword (by simpa using hsep)] at hleft
          exact .inl hleft
        · exact .inr hright
        · rcases List.suffix_concat_iff.1 hfront with rfl | ⟨text', rfl, -⟩
          · exact .inr hback.isInfix
          · exact absurd (by simp) hsep
      · rintro (hleft | hright)
        · exact hleft.trans ((List.prefix_append text [sep]).trans (List.prefix_append _ _)).isInfix
        · exact hright.trans (List.suffix_append _ _).isInfix

theorem infix_dropWhile_iff {p : Char → Bool} (h : ∀ c, p c = true → c ∉ word) (cs : List Char) :
    word <:+: cs.dropWhile p ↔ word <:+: cs := by
  have hsplit := List.takeWhile_append_dropWhile (p := p) (l := cs)
  have htake : ∀ c ∈ cs.takeWhile p, c ∉ word :=
    fun c hc => h c (List.all_eq_true.1 List.all_takeWhile c hc)
  rw [← infix_append_iff_right hword htake, hsplit]

theorem infix_trimWhile_iff {p : Char → Bool} (h : ∀ c, p c = true → c ∉ word) (cs : List Char) :
    word <:+: trimWhile p cs ↔ word <:+: cs := by
  have hback : word.reverse <:+: (cs.dropWhile p).reverse.dropWhile p ↔
      word.reverse <:+: (cs.dropWhile p).reverse :=
    infix_dropWhile_iff (by simpa using hword) (by simpa using h) _
  rw [trimWhile, ← List.reverse_infix, List.reverse_reverse, hback, List.reverse_infix,
    infix_dropWhile_iff hword h]

/-- Texts that are empty do not matter. -/
theorem infix_filter_iff (texts : List (List Char)) :
    (∃ text ∈ texts.filter (!·.isEmpty), word <:+: text) ↔ ∃ text ∈ texts, word <:+: text := by
  refine exists_congr fun text => ?_
  rw [List.mem_filter, and_assoc]
  refine and_congr_right fun _ => and_iff_right_of_imp fun hinfix => ?_
  have hne : text ≠ [] := fun hnil => hword (List.infix_nil.1 (hnil ▸ hinfix))
  simpa using hne

/-- A word without newlines stands in one of the lines. -/
theorem infix_split_iff (hnewline : '\n' ∉ word) (cs : List Char) :
    (∃ line ∈ split '\n' cs, word <:+: line) ↔ word <:+: cs := by
  rw [LocationLemmas.split_eq_splitOn, ← infix_intercalate_iff hword hnewline,
    List.intercalate_splitOn]

/-- A word without spaces stands in what one of the lines says. -/
theorem infix_blockText_iff_line (hspace : ' ' ∉ word) (cs : List Char) :
    word <:+: Document.blockText cs ↔
      ∃ line ∈ split '\n' (Document.dropClosingMarks cs.reverse).reverse,
        word <:+: Document.commentLine line := by
  rw [Document.blockText, Document.joinWithSpaces, infix_intercalate_iff hword hspace,
    infix_filter_iff hword]
  simp only [List.mem_map, exists_exists_and_eq_and]

/-- A word without spaces stands in one of the texts that a comment is put together from. -/
theorem infix_joinComments_iff_text (hspace : ' ' ∉ word) (texts : List String) :
    (∃ c, Document.joinComments texts = some c ∧ word <:+: c.toList) ↔
      ∃ text ∈ texts, word <:+: text.toList := by
  have hchars : (texts.filter (!·.isEmpty)).map String.toList =
      (texts.map String.toList).filter (!·.isEmpty) := by
    rw [List.filter_map]
    refine congrArg (List.map String.toList) (List.filter_congr fun text _ => ?_)
    rw [Function.comp_apply, Bool.eq_iff_iff]
    simp
  calc (∃ c, Document.joinComments texts = some c ∧ word <:+: c.toList)
      ↔ word <:+: Document.joinWithSpaces ((texts.filter (!·.isEmpty)).map String.toList) := by
        rw [Document.joinComments]
        cases texts.filter (!·.isEmpty) with
        | nil => simp [Document.joinWithSpaces, List.intercalate_nil, hword]
        | cons text texts => simp
    _ ↔ ∃ text ∈ texts.map String.toList, word <:+: text := by
        rw [hchars, Document.joinWithSpaces, infix_intercalate_iff hword hspace,
          infix_filter_iff hword]
    _ ↔ ∃ text ∈ texts, word <:+: text.toList := by
        simp only [List.mem_map, exists_exists_and_eq_and]

end Words

theorem exists_closingMarks (cs : List Char) :
    ∃ marks, cs = marks ++ Document.dropClosingMarks cs ∧ ∀ c ∈ marks, c = '/' ∨ c = '*' := by
  fun_induction Document.dropClosingMarks cs with
  | case1 c d cs hmark ih =>
    obtain ⟨rfl, rfl⟩ := hmark
    obtain ⟨marks, hcs, hmarks⟩ := ih
    refine ⟨'/' :: '*' :: marks, ?_, by simpa using hmarks⟩
    rw [List.cons_append, List.cons_append, ← hcs]
  | case2 c d cs _ => exact ⟨[], rfl, by simp⟩
  | case3 cs _ => exact ⟨[], rfl, by simp⟩

/-! ## 2. One comment -/

section Comments

variable {word : List Char} (hword : IsSolid word)

include hword

theorem infix_commentLine_iff (line : List Char) :
    word <:+: Document.commentLine line ↔ word <:+: line := by
  have hstar (c : Char) (hc : decide (c = '*') = true) : c ∉ word :=
    of_decide_eq_true hc ▸ hword.star
  rw [Document.commentLine, trimBlanks, trimBlanks,
    infix_trimWhile_iff hword.ne_nil fun c => hword.blank_not_mem,
    infix_dropWhile_iff hword.ne_nil hstar,
    infix_trimWhile_iff hword.ne_nil fun c => hword.blank_not_mem]

theorem infix_dropClosingMarks_iff (cs : List Char) :
    word <:+: (Document.dropClosingMarks cs.reverse).reverse ↔ word <:+: cs := by
  obtain ⟨marks, hcs, hmarks⟩ := exists_closingMarks cs.reverse
  have hforeign : ∀ c ∈ marks.reverse, c ∉ word := by
    intro c hc
    rcases hmarks c (List.mem_reverse.1 hc) with rfl | rfl
    · exact hword.slash
    · exact hword.star
  rw [← infix_append_iff_left hword.ne_nil hforeign, ← List.reverse_append, ← hcs,
    List.reverse_reverse]

theorem infix_blockText_iff (cs : List Char) :
    word <:+: Document.blockText cs ↔ word <:+: cs := by
  have hspace : ' ' ∉ word := hword.blank_not_mem (by decide)
  have hnewline : '\n' ∉ word := hword.blank_not_mem (by decide)
  rw [infix_blockText_iff_line hword.ne_nil hspace]
  simp only [infix_commentLine_iff hword]
  rw [infix_split_iff hword.ne_nil hnewline, infix_dropClosingMarks_iff hword]

theorem infix_commentChars_iff (cs : List Char) :
    word <:+: Document.commentChars cs ↔ word <:+: cs := by
  unfold Document.commentChars
  split
  · next rest =>
    have hmarks : ∀ c ∈ ['/', '*'], c ∉ word := by
      simp [hword.slash, hword.star]
    rw [infix_blockText_iff hword]
    exact (infix_append_iff_right hword.ne_nil hmarks rest).symm
  · have hslash (c : Char) (hc : decide (c = '/') = true) : c ∉ word :=
      of_decide_eq_true hc ▸ hword.slash
    rw [trimBlanks, infix_trimWhile_iff hword.ne_nil fun c => hword.blank_not_mem,
      infix_dropWhile_iff hword.ne_nil hslash]

/-! ## 3. The comments of a declaration -/

theorem infix_joinComments_iff (raws : List String) :
    (∃ c, Document.joinComments (raws.map Document.commentText) = some c ∧ word <:+: c.toList) ↔
      ∃ raw ∈ raws, word <:+: raw.toList := by
  rw [infix_joinComments_iff_text hword.ne_nil (hword.blank_not_mem (by decide))]
  simp only [List.mem_map, exists_exists_and_eq_and, Document.commentText, String.toList_ofList,
    infix_commentChars_iff hword]

end Comments

theorem isSolid_deprecationMarker : IsSolid deprecationMarker.toList where
  ne_nil := by decide
  blank := Token.forall_mem_of_all (by decide)
  slash := by decide
  star := by decide

theorem isDeprecated_iff (x : Described) :
    x.isDeprecated = true ↔ ∃ c, x.comment = some c ∧ IsMarked c := by
  simp only [Described.isDeprecated, Option.any_eq_true, occursIn_iff, IsMarked]

theorem comment_of_declared {p : Part} {x : Described} {position : Text.Position}
    (h : p.declared = some (x.declaredAt position)) :
    x.comment = Document.joinComments ((p.attached.map (·.text)).map Document.commentText) := by
  obtain ⟨name, -, hx⟩ := Option.map_eq_some_iff.1 h
  rw [List.map_map]
  exact (congrArg Declared.comment hx).symm

/-- What a part declares is deprecated by the comments that belong to the part. -/
theorem isDeprecated_iff_attached {p : Part} {x : Described} {position : Text.Position}
    (h : p.declared = some (x.declaredAt position)) :
    x.isDeprecated = true ↔ ∃ t ∈ p.attached, IsMarked t.text := by
  have hjoined := infix_joinComments_iff isSolid_deprecationMarker (p.attached.map (·.text))
  rw [← comment_of_declared h] at hjoined
  simpa only [isDeprecated_iff, IsMarked, List.mem_map, exists_exists_and_eq_and] using hjoined

theorem forall_declared {d : Document} (hd : d.Printable) :
    ∀ x ∈ d.declared, ∀ c, x.comment = some c → Tidy c.toList ∧ c.toList ≠ [] := by
  have hdefinition {μ : Type} {P : μ → Prop} {declare : μ → Declared} {m : Declaration μ}
      (hmember : ∀ x, P x → ∀ c, (declare x).comment = some c → Tidy c.toList ∧ c.toList ≠ [])
      (hm : m.Printable P) :
      ∀ x ∈ m.declared declare, ∀ c, x.comment = some c → Tidy c.toList ∧ c.toList ≠ [] :=
    List.forall_mem_cons.2 ⟨hm.described.comment,
      List.forall_mem_map.2 fun x hx => hmember x (hm.members x hx)⟩
  refine List.forall_mem_append.2 ⟨?_, ?_⟩
  · exact List.forall_mem_flatMap.2 fun m hm =>
      hdefinition (fun _ hf => hf.described.comment) (hd.messages m hm)
  · exact List.forall_mem_flatMap.2 fun e he =>
      hdefinition (fun _ hc => hc.described.comment) (hd.enums e he)

end MarkedCommentsLemmas

open MarkedCommentsLemmas

/-! ## 4. Documents -/

namespace Document

/-- The comments of a text that can be read. Each one in the document is one line with something to
say. The deprecation marker is kept and never made up when comments are put together, and so what is
declared is deprecated just if the marker stands in a comment that belongs to it in the text. -/
theorem comments_normal {text : String} {ts : List Token} {d : Document}
    (hts : Token.tokenize text = .ok ts) (hd : ofTokens ts = .ok d) :
    (∀ x ∈ d.declared, ∀ c, x.comment = some c → Tidy c.toList ∧ c.toList ≠ []) ∧
    (∀ raws : List String, (∃ c, joinComments (raws.map commentText) = some c ∧ IsMarked c) ↔
      ∃ raw ∈ raws, IsMarked raw) ∧
    (∃ parts, Reading none ts parts) ∧
    ∀ parts, Reading none ts parts →
      (parts.filterMap Part.declared).Perm d.declared ∧
      ∀ p ∈ parts, Grammar.Comments p.attached ∧
        ∀ (x : Described) position, p.declared = some (x.declaredAt position) →
          (x.isDeprecated = true ↔ ∃ t ∈ p.attached, IsMarked t.text) := by
  obtain ⟨hreading, hdeclared⟩ := readings_of_ofTokens hts hd
  have hprintable := printable_of_ofText (ofText_eq_ok_iff.2 ⟨ts, hts, hd⟩)
  refine ⟨forall_declared hprintable, infix_joinComments_iff isSolid_deprecationMarker, hreading,
    fun parts hparts => ⟨hdeclared parts hparts, fun p hp => ⟨hparts.comments p hp, ?_⟩⟩⟩
  exact fun x position => isDeprecated_iff_attached

/-- The marker on a line of stars, behind a member, and a comment without it. -/
def markedText : String :=
  "/** a\n * @deprecated**/ message M \x7b // b\n\x7d enum E \x7b A = 0; // @deprecated\n" ++
    " B = 1; /* c */ \x7d"

def markedMessage : MessageDecl where
  name := "M"
  comment := some "a @deprecated* b"
  ignored := false
  members := []
  position := ⟨2, 27⟩

def unmarkedConstant : ConstantDecl where
  name := "B"
  comment := some "c"
  ignored := false
  number := 1
  position := ⟨4, 2⟩

def markedDocument : Document where
  headers := []
  messages := [markedMessage]
  enums := [{
    name := "E"
    comment := none
    ignored := false
    members := [{
      name := "A"
      comment := some "@deprecated"
      ignored := false
      number := 0
      position := ⟨3, 12⟩ }, unmarkedConstant]
    position := ⟨3, 8⟩ }]

theorem comments_normal_markedText :
    ∃ ts parts, Token.tokenize markedText = .ok ts ∧ ofTokens ts = .ok markedDocument ∧
      Reading none ts parts ∧
      (∃ p ∈ parts, p.declared = some (markedMessage.declaredAt ⟨2, 27⟩) ∧
        ∃ t ∈ p.attached, IsMarked t.text) ∧
      ∃ p ∈ parts, p.declared = some unmarkedConstant.declared ∧
        ¬ ∃ t ∈ p.attached, IsMarked t.text := by
  have hread : ofText markedText = .ok markedDocument := by decide +kernel
  obtain ⟨ts, hts, hd⟩ := ofText_eq_ok_iff.1 hread
  obtain ⟨-, -, ⟨parts, hparts⟩, hall⟩ := comments_normal hts hd
  obtain ⟨hperm, hiff⟩ := hall parts hparts
  have hpart {x : Declared} (hx : x ∈ markedDocument.declared) :
      ∃ p ∈ parts, p.declared = some x :=
    List.mem_filterMap.1 (hperm.mem_iff.2 hx)
  obtain ⟨p, hp, hmessage⟩ := hpart (x := markedMessage.declaredAt ⟨2, 27⟩) (by decide +kernel)
  obtain ⟨q, hq, hconstant⟩ := hpart (x := unmarkedConstant.declared) (by decide +kernel)
  have hmarked : markedMessage.isDeprecated = true := by decide +kernel
  have hunmarked : ¬ unmarkedConstant.isDeprecated = true := by decide +kernel
  exact ⟨ts, parts, hts, hd, hparts, ⟨p, hp, hmessage, ((hiff p hp).2 _ _ hmessage).1 hmarked⟩,
    q, hq, hconstant, mt ((hiff q hq).2 _ _ hconstant).2 hunmarked⟩

end Document

end SchemaGen
