import SchemaGen.Proofs.JavaNames
import SchemaGen.Proofs.MarkedComments
import SchemaGen.Proofs.TrailingComments

/-!
# Documentation comments

What the comments of a schema say is written into documentation comments of the Java sources. A
closing mark in it would end such a comment early, and what follows would be read as code.

A block comment of a schema ends with its first closing mark, and that one is taken off. So none is
left, and none comes about when comments are put together, since a space stands between them. A
comment to the end of its line may hold the mark, though, and nothing takes it out. Hence a
documentation comment is one comment just if no comment of the latter kind that belongs to the
declaration holds the mark.

Results:
1. `isOneComment_doc_iff`: the lines of a documentation comment.
2. `closingMark_infix_commentText_iff`: what one comment of a schema says.
3. `isOneComment_iff_attached`: the comments that belong to a declaration.
4. `Java.documentation_closes_iff`: the documentation comments in the sources for a file.
-/

namespace SchemaGen

open Text (isBlank split trimBlanks trimWhile)

/-! ## Definitions -/

/-- The mark that ends a block comment. -/
def closingMark : List Char :=
  ['*', '/']

/-- The token is a comment to the end of its line and holds the mark that ends block comments. -/
def Token.HoldsClosingMark (t : Token) : Prop :=
  ['/', '/'] <+: t.text.toList ∧ closingMark <:+: t.text.toList

/-- The part declares `x`. -/
def Part.Declares (p : Part) (x : Described) : Prop :=
  ∃ position, p.declared = some (x.declaredAt position)

namespace Java

/-- The lines are one comment: behind the mark that opens it, the closing mark stands at the very end
and nowhere before. -/
def IsOneComment (lines : List String) : Prop :=
  ∃ indent body, (∀ c ∈ indent, c = ' ') ∧
    ['\n'].intercalate (lines.map String.toList) = indent ++ "/**".toList ++ body ++ closingMark ∧
    ¬ closingMark <:+: body ++ ['*']

/-- Among the sources for the file `f`, `source` has room for the documentation of `x`, with the
given indent. -/
inductive Documents (o : Output) (g : Graph) (f : SchemaFile) :
    GeneratedFile → String → Described → Prop
  | message {m : Message} (hm : m ∈ f.messages) (hkept : m.isSkipped = false) :
      Documents o g f (classSource o g f m) "" m.toDescribed
  | field {m : Message} {x : Field} (hm : m ∈ f.messages) (hkept : m.isSkipped = false)
      (hx : x ∈ m.kept) : Documents o g f (classSource o g f m) "  " x.toDescribed
  | enumeration {e : Enumeration} (he : e ∈ f.enums) (hkept : e.isSkipped = false) :
      Documents o g f (sourceOf o f e.name (enumLines f e)) "" e.toDescribed
  | constant {e : Enumeration} {c : Constant} (he : e ∈ f.enums) (hkept : e.isSkipped = false)
      (hc : c ∈ e.kept) : Documents o g f (sourceOf o f e.name (enumLines f e)) "  " c.toDescribed

end Java

namespace DocCommentsLemmas

open MarkedCommentsLemmas

/-! ## 1. The lines of a documentation comment -/

theorem closingMark_ne_nil : closingMark ≠ [] := by
  decide

theorem closingMark_infix_iff {sep : Char} (hsep : sep ∉ closingMark) (front back : List Char) :
    closingMark <:+: front ++ sep :: back ↔ closingMark <:+: front ∨ closingMark <:+: back := by
  have hjoined := infix_intercalate_iff closingMark_ne_nil hsep [front, back]
  simpa using hjoined

theorem not_closingMark_infix_spaces {cs : List Char} (h : ∀ c ∈ cs, c = ' ') :
    ¬ closingMark <:+: cs := by
  intro hmark
  have hstar := h '*' (hmark.subset (by decide))
  exact absurd hstar (by decide)

/-- Two texts that are opened by marks behind spaces go on alike. -/
theorem eq_of_opened {indent indent' rest rest' : List Char} (h : ∀ c ∈ indent, c = ' ')
    (h' : ∀ c ∈ indent', c = ' ')
    (heq : indent ++ ("/**".toList ++ rest) = indent' ++ ("/**".toList ++ rest')) :
    rest = rest' := by
  have hdrop {blanks : List Char} (hblanks : ∀ c ∈ blanks, c = ' ') (more : List Char) :
      (blanks ++ ("/**".toList ++ more)).dropWhile (· = ' ') = "/**".toList ++ more :=
    (List.dropWhile_append_of_pos (by simpa using hblanks)).trans rfl
  have hopened := congrArg (List.dropWhile (· = ' ')) heq
  rw [hdrop h, hdrop h'] at hopened
  exact List.append_cancel_left hopened

/-- A documentation comment is one comment just if the text in it has no closing mark. -/
theorem isOneComment_doc_iff {indent : String} (h : ∀ c ∈ indent.toList, c = ' ')
    (comment : String) :
    Java.IsOneComment (Java.doc indent (some comment)) ↔ ¬ closingMark <:+: comment.toList := by
  generalize hbody : '\n' :: indent.toList ++ ' ' :: '*' :: ' ' :: (comment.toList ++
    '\n' :: (indent.toList ++ [' '])) = body
  have htext : ['\n'].intercalate ((Java.doc indent (some comment)).map String.toList) =
      indent.toList ++ "/**".toList ++ body ++ closingMark := by
    simp [Java.doc, ← hbody, closingMark]
  have hiff : closingMark <:+: body ++ ['*'] ↔ closingMark <:+: comment.toList := by
    have hspaces := not_closingMark_infix_spaces h
    have hnone : ¬ closingMark <:+: [] := by decide
    have hstar : ¬ closingMark <:+: ['*'] := by decide
    have hsplit : body ++ ['*'] = [] ++ '\n' :: (indent.toList ++ ' ' :: (['*'] ++ ' ' ::
        (comment.toList ++ '\n' :: (indent.toList ++ ' ' :: ['*'])))) := by
      simp [← hbody]
    rw [hsplit, closingMark_infix_iff (by decide), closingMark_infix_iff (by decide),
      closingMark_infix_iff (by decide), closingMark_infix_iff (by decide),
      closingMark_infix_iff (by decide)]
    simp only [hspaces, hnone, hstar, false_or, or_false]
  constructor
  · rintro ⟨indent', body', hindent', htext', hfirst⟩
    rw [htext] at htext'
    simp only [List.append_assoc] at htext'
    obtain rfl := List.append_cancel_right (eq_of_opened h hindent' htext')
    exact mt hiff.2 hfirst
  · exact fun hnone => ⟨indent.toList, body, h, htext, mt hiff.1 hnone⟩

/-! ## 2. What one comment says -/

theorem isInfix_trimWhile (p : Char → Bool) (cs : List Char) : trimWhile p cs <:+: cs := by
  have hback : (cs.dropWhile p).reverse.dropWhile p <:+: (cs.dropWhile p).reverse :=
    (List.dropWhile_suffix p).isInfix
  rw [← List.reverse_infix, List.reverse_reverse] at hback
  exact hback.trans (List.dropWhile_suffix p).isInfix

theorem isInfix_commentLine (line : List Char) : Document.commentLine line <:+: line :=
  (isInfix_trimWhile _ _).trans ((List.dropWhile_suffix _).isInfix.trans (isInfix_trimWhile _ _))

/-- A block ends with its first closing mark. -/
theorem exists_of_blockEnd? {cs : List Char} (h : Token.blockEnd? cs = some cs.length) :
    ∃ body, cs = body ++ closingMark ∧ ¬ closingMark <:+: body ++ ['*'] := by
  induction cs with
  | nil => cases h
  | cons c cs ih =>
    rw [Token.blockEnd?] at h
    split at h
    · next hend =>
      obtain ⟨rfl, hslash⟩ := hend
      obtain ⟨cs, rfl⟩ := List.head?_eq_some_iff.1 hslash
      obtain rfl : cs = [] := by simpa using h
      exact ⟨[], rfl, by decide⟩
    · next hmore =>
      obtain ⟨n, hn, hlength⟩ := Option.map_eq_some_iff.1 h
      rw [List.length_cons, Nat.add_right_cancel_iff] at hlength
      obtain ⟨body, rfl, hbody⟩ := ih (hlength ▸ hn)
      refine ⟨c :: body, rfl, fun hinfix => ?_⟩
      rcases List.infix_cons_iff.1 hinfix with hfront | hlater
      · obtain ⟨rfl, hslash⟩ := List.cons_prefix_cons.1 hfront
        refine hmore ⟨rfl, ?_⟩
        cases body with
        | nil => exact absurd hslash (by decide)
        | cons d body => rw [← (List.cons_prefix_cons.1 hslash).1]; rfl
      · exact hbody hlater

theorem dropClosingMarks_eq {body : List Char} (h : ¬ closingMark <:+: body ++ ['*']) :
    Document.dropClosingMarks (body ++ closingMark).reverse = body.reverse := by
  rw [List.reverse_append]
  show Document.dropClosingMarks body.reverse = body.reverse
  generalize hback : body.reverse = back
  unfold Document.dropClosingMarks
  split
  · next c d cs =>
    refine if_neg ?_
    rintro ⟨rfl, rfl⟩
    have hbody : body = cs.reverse ++ closingMark := by
      rw [← List.reverse_reverse body, hback]
      simp [closingMark]
    exact h (hbody ▸ ⟨cs.reverse, ['*'], by simp⟩)
  · rfl

/-- What a block comment says has no closing mark. -/
theorem not_closingMark_infix_blockText {cs : List Char}
    (h : Token.blockEnd? cs = some cs.length) :
    ¬ closingMark <:+: Document.blockText cs := by
  obtain ⟨body, rfl, hbody⟩ := exists_of_blockEnd? h
  rw [infix_blockText_iff_line closingMark_ne_nil (by decide), dropClosingMarks_eq hbody,
    List.reverse_reverse]
  rintro ⟨line, hline, hinfix⟩
  have hin : closingMark <:+: body :=
    (infix_split_iff closingMark_ne_nil (by decide) body).1
      ⟨line, hline, hinfix.trans (isInfix_commentLine line)⟩
  exact hbody (hin.trans (List.prefix_append body ['*']).isInfix)

/-- The slashes in front of a comment to the end of its line make no closing mark. -/
theorem closingMark_infix_dropWhile_iff (cs : List Char) :
    closingMark <:+: cs.dropWhile (· = '/') ↔ closingMark <:+: cs := by
  induction cs with
  | nil => rfl
  | cons c cs ih =>
    by_cases hc : c = '/'
    · subst hc
      have hfront : ¬ closingMark <+: '/' :: cs := fun h =>
        absurd (List.cons_prefix_cons.1 h).1 (by decide)
      rw [List.dropWhile_cons_of_pos (by simp), ih, List.infix_cons_iff, or_iff_right hfront]
    · rw [List.dropWhile_cons_of_neg (by simpa using hc)]

theorem lexemeLength?_slashStar (cs : List Char) :
    Token.lexemeLength? ('/' :: '*' :: cs) = (Token.blockEnd? cs).map (· + 2) := by
  have hblock : Token.blockCommentLength? ('/' :: '*' :: cs) = (Token.blockEnd? cs).map (· + 2) :=
    rfl
  rw [Token.lexemeLength?, hblock]
  cases Token.blockEnd? cs <;> rfl

theorem closingMark_infix_commentText_iff {t : Token} (ht : t.IsLexeme)
    (hkind : t.kind = .comment) :
    closingMark <:+: (Document.commentText t.text).toList ↔ t.HoldsClosingMark := by
  rw [Document.commentText, String.toList_ofList, Token.HoldsClosingMark]
  obtain ⟨more, hlength⟩ := Token.exists_more_of_isLexeme ht
  obtain ⟨d, rest, htext, rfl | rfl⟩ := Token.kindOf_eq_comment (ht.kind ▸ hkind)
  · have hblank (c : Char) (hc : isBlank c = true) : c ∉ closingMark := by
      intro hmem
      rcases List.mem_pair.1 hmem with rfl | rfl <;> exact absurd hc (by decide)
    have hchars : Document.commentChars ('/' :: '/' :: rest) =
        trimBlanks (('/' :: '/' :: rest).dropWhile (· = '/')) := rfl
    rw [htext, hchars, trimBlanks, infix_trimWhile_iff closingMark_ne_nil hblank,
      closingMark_infix_dropWhile_iff]
    exact (and_iff_right ⟨rest, rfl⟩).symm
  · have hend : Token.blockEnd? rest = some rest.length := by
      rw [htext, List.cons_append, List.cons_append, lexemeLength?_slashStar] at hlength
      obtain ⟨n, hn, hn'⟩ := Option.map_eq_some_iff.1 hlength
      obtain rfl : n = rest.length := by simpa using hn'
      simpa using Token.blockEnd?_moved hn []
    rw [htext]
    refine iff_of_false (not_closingMark_infix_blockText hend) fun hholds => ?_
    exact absurd (List.cons_prefix_cons.1 (List.cons_prefix_cons.1 hholds.1).2).1 (by decide)

/-! ## 3. The comments of a declaration -/

theorem attached_of_reading {text : String} {ts : List Token} {parts : List Part}
    (hts : Token.tokenize text = .ok ts) (hparts : Reading none ts parts) {p : Part}
    (hp : p ∈ parts) {t : Token} (ht : t ∈ p.attached) : t.IsLexeme ∧ t.kind = .comment := by
  have hkind : t.kind = .comment := hparts.comments p hp t ht
  have hmem : t ∈ ts := by
    rw [TrailingCommentsLemmas.tokens_of_reading hparts]
    exact List.mem_flatMap.2 ⟨p, hp, TrailingCommentsLemmas.attached_subset p ht⟩
  obtain ⟨lexemes, mark, rfl, hlexemes, hmark, -⟩ :=
    (Token.scanned_of_tokenize hts).exists_mark
  rcases List.mem_append.1 hmem with hlexeme | hlast
  · exact ⟨hlexemes t hlexeme, hkind⟩
  · obtain rfl := List.mem_singleton.1 hlast
    rw [hmark] at hkind
    cases hkind

/-- The documentation comment for what a part declares. -/
theorem isOneComment_iff_attached {p : Part} {x : Described} (hdeclares : p.Declares x)
    (hattached : ∀ t ∈ p.attached, t.IsLexeme ∧ t.kind = .comment) {indent : String}
    (hindent : ∀ c ∈ indent.toList, c = ' ') (hcomment : x.comment ≠ none) :
    Java.IsOneComment (Java.doc indent x.comment) ↔ ∀ t ∈ p.attached, ¬ t.HoldsClosingMark := by
  obtain ⟨position, hdeclared⟩ := hdeclares
  obtain ⟨comment, hx⟩ := Option.ne_none_iff_exists'.1 hcomment
  have hjoined := infix_joinComments_iff_text closingMark_ne_nil (by decide)
    ((p.attached.map (·.text)).map Document.commentText)
  rw [← comment_of_declared hdeclared, hx] at hjoined
  rw [hx, isOneComment_doc_iff hindent]
  calc ¬ closingMark <:+: comment.toList
      ↔ ¬ ∃ t ∈ p.attached, closingMark <:+: (Document.commentText t.text).toList := by
        simpa only [Option.some.injEq, exists_eq_left', List.mem_map, exists_exists_and_eq_and]
          using not_congr hjoined
    _ ↔ ∀ t ∈ p.attached, ¬ t.HoldsClosingMark := by
        rw [not_exists]
        refine forall_congr' fun t => ?_
        rw [not_and]
        refine imp_congr_right fun ht => not_congr ?_
        exact closingMark_infix_commentText_iff (hattached t ht).1 (hattached t ht).2

end DocCommentsLemmas

open DocCommentsLemmas ReferencesLemmas

/-! ## 4. The sources for a file -/

namespace Java.Documents

variable {o : Output} {g : Graph} {f : SchemaFile} {source : GeneratedFile} {indent : String}
  {x : Described}

theorem indent_eq (h : Documents o g f source indent x) : ∀ c ∈ indent.toList, c = ' ' := by
  cases h <;> exact Token.forall_mem_of_all (by decide)

theorem mem_filesFor (h : Documents o g f source indent x) : source ∈ filesFor o g f := by
  cases h with
  | message hm hkept | field hm hkept => exact classSource_mem_filesFor hm hkept o g
  | @enumeration e he hkept | @constant e _ he hkept =>
    refine List.mem_append_right _ (List.mem_map.2 ⟨e, List.mem_filter.2 ⟨he, ?_⟩, rfl⟩)
    rw [hkept]
    rfl

theorem isInfix_flatMap {α : Type} {items : List α} {a : α} (ha : a ∈ items)
    (lines : α → List String) : lines a <:+: items.flatMap lines :=
  List.infix_of_mem_flatten (List.mem_map_of_mem ha)

/-- The documentation of `x` stands in the source. -/
theorem lines (h : Documents o g f source indent x) : doc indent x.comment <:+: source.lines := by
  have htype (keyword : String) (x : Described) :
      doc "" x.comment <:+: typeStart f keyword x := ⟨_, _, rfl⟩
  have hsource {part texts : List String} (hpart : part <:+: texts) (name : String) :
      part <:+: (sourceOf o f name texts).lines :=
    hpart.trans (List.suffix_append _ _).isInfix
  cases h with
  | @message m =>
    refine hsource ((htype "class" m.toDescribed).trans ?_) _
    exact ((List.prefix_append _ _).trans (List.prefix_append _ _)).isInfix
  | @field m x _ _ hx =>
    refine hsource (List.IsInfix.trans ?_ ⟨_, _, rfl⟩) _
    refine List.IsInfix.trans ?_ (isInfix_flatMap hx _)
    exact (List.prefix_append _ _).isInfix
  | @enumeration e =>
    refine hsource ((htype "enum" e.toDescribed).trans ?_) _
    exact ((List.prefix_append _ _).trans (List.prefix_append _ _)).isInfix
  | @constant e c _ _ hc =>
    rw [← Rust.withLast_map e.kept] at hc
    obtain ⟨⟨c, isLast⟩, hlast, rfl⟩ := List.mem_map.1 hc
    refine hsource (List.IsInfix.trans ?_ ⟨_, _, rfl⟩) _
    refine List.IsInfix.trans ?_ (isInfix_flatMap hlast _)
    exact (List.prefix_append _ _).isInfix

/-- What a source documents was declared. -/
theorem exists_declared (h : Documents o g f source indent x) {d : Document}
    (hreflects : f.Reflects g d) : ∃ position, x.declaredAt position ∈ d.declared := by
  cases h with
  | message hm =>
    obtain ⟨decl, hdecl, hmessage⟩ := exists_right_of_forall₂ hreflects.messages hm
    refine ⟨decl.position, List.mem_append_left _ (List.mem_flatMap.2 ⟨decl, hdecl, ?_⟩)⟩
    rw [hmessage.described]
    exact List.mem_cons_self
  | field hm _ hx =>
    obtain ⟨decl, hdecl, hmessage⟩ := exists_right_of_forall₂ hreflects.messages hm
    obtain ⟨fieldDecl, hfieldDecl, hfield⟩ :=
      exists_right_of_forall₂ hmessage.fields (List.mem_filter.1 hx).1
    refine ⟨fieldDecl.position, List.mem_append_left _ (List.mem_flatMap.2 ⟨decl, hdecl, ?_⟩)⟩
    rw [hfield.described]
    exact List.mem_cons_of_mem _ (List.mem_map_of_mem hfieldDecl)
  | enumeration he =>
    rw [hreflects.enums] at he
    obtain ⟨decl, hdecl, rfl⟩ := List.mem_map.1 he
    refine ⟨decl.position, List.mem_append_right _ (List.mem_flatMap.2 ⟨decl, hdecl, ?_⟩)⟩
    exact List.mem_cons_self
  | constant he _ hc =>
    rw [hreflects.enums] at he
    obtain ⟨decl, hdecl, rfl⟩ := List.mem_map.1 he
    obtain ⟨⟨constant, index⟩, hindexed, rfl⟩ := List.mem_map.1 (List.mem_filter.1 hc).1
    have hconstant : constant ∈ decl.members := (List.mem_zipIdx' hindexed).2 ▸ List.getElem_mem _
    refine ⟨constant.position, List.mem_append_right _ (List.mem_flatMap.2 ⟨decl, hdecl, ?_⟩)⟩
    exact List.mem_cons_of_mem _ (List.mem_map_of_mem hconstant)

end Java.Documents

/-- In every catalog that loads lead to, each file was read from a text whose comments belong to its
parts, and the Java sources for the file document what these parts declare. Such a documentation
comment is one comment just if no comment to the end of a line that belongs to the part holds the
mark that ends block comments. -/
theorem Java.documentation_closes_iff {fs : FileSystem} {dir : Path} {start c : Catalog}
    {seen : List FileSystem} (hstart : Catalog.ofRoot fs dir = .ok start)
    (hreached : ReachedOver start seen c) {i : FileId} {f : SchemaFile}
    (hf : c.graph.file? i = some f) :
    ((Event.ofFile f).forM (target.handle c.graph f)).Writes (fun o => filesFor o c.graph f) ∧
      ∃ l text ts parts, f.path = l.path ∧
        (∃ fs ∈ seen, ∃ contents, fs.readAt l = .ok contents ∧ Text.ofBytes contents = .ok text) ∧
        Token.tokenize text = .ok ts ∧ Reading none ts parts ∧
        ∀ o source indent x, Documents o c.graph f source indent x →
          source ∈ filesFor o c.graph f ∧ doc indent x.comment <:+: source.lines ∧
          (∃ p ∈ parts, p.Declares x) ∧
          (x.comment ≠ none → ∀ p ∈ parts, p.Declares x →
            (IsOneComment (doc indent x.comment) ↔ ∀ t ∈ p.attached, ¬ t.HoldsClosingMark)) := by
  obtain ⟨hc, -⟩ := Catalog.grown_of_ofRoot hstart hreached
  obtain ⟨l, d, hpath, ⟨fs, hfs, contents, text, hread, htext, hd⟩, hreflects⟩ :=
    hc.graph.contents hf
  obtain ⟨ts, hts, hd⟩ := Document.ofText_eq_ok_iff.1 hd
  obtain ⟨⟨parts, hparts⟩, hdeclared⟩ := Document.readings_of_ofTokens hts hd
  refine ⟨generates.writes List.prefix_rfl f, l, text, ts, parts, hpath,
    ⟨fs, hfs, contents, hread, htext⟩, hts, hparts, fun o source indent x hx =>
      ⟨hx.mem_filesFor, hx.lines, ?_, fun hcomment p hp hdeclares => ?_⟩⟩
  · obtain ⟨position, hmem⟩ := hx.exists_declared hreflects
    obtain ⟨p, hp, hpart⟩ := List.mem_filterMap.1 ((hdeclared parts hparts).mem_iff.2 hmem)
    exact ⟨p, hp, position, hpart⟩
  · exact isOneComment_iff_attached hdeclares
      (fun t ht => attached_of_reading hts hparts hp ht) hx.indent_eq hcomment

/-! ### A comment that is closed early -/

namespace Lone

/-- A message behind a line that holds the closing mark, and a field with a block and a line. -/
def breakingText : String :=
  "package p;\n// a */ b\nmessage M \x7b\n/* c // d **/ int32 x = 1; // e\n\x7d"

/-- The message of the text. -/
def breakingMessage : Message :=
  ⟨⟨"M", some "a */ b", false⟩, 0,
    [⟨⟨"x", some "c // d * e", false⟩, 1, 0, .base .int32, .singular⟩]⟩

/-- The file with the message. -/
def breakingFile : SchemaFile :=
  { SchemaFile.empty 0 ⟨"/s"⟩ ⟨"a"⟩ ⟨"/s/a"⟩ with
    headers := [⟨.package, "package", "p"⟩]
    messages := [breakingMessage]
    definitions := ⟨[("M", ⟨0, .message, 0⟩)], by decide⟩ }

/-- The lines of the source for the message. -/
def breakingLines : List String :=
  (Java.classSource (.new ⟨"/o"⟩ Java.extension "pbgen") ⟨[breakingFile]⟩ breakingFile
    breakingMessage).lines

/-- The text is read, the file is told, and the source is written. -/
theorem breaking_steps :
    Catalog.loadWithin (systemWithOutput breakingText) 1 ⟨"/s/a"⟩ ⟨⟨"/s"⟩, .empty, [], []⟩ =
        some (.ok 0, (visit breakingFile).catalog) ∧
      ∃ r ∈ within breakingText, r.2.2.1 = .ok ⟨1, 1, 0, 0⟩ ∧
        r.2.2.2.workspace.files.read ⟨"/o/p/M.java"⟩ = .ok (Output.bytes breakingLines) := by
  decide +kernel

theorem breaking_reached :
    Catalog.ofRoot (system breakingText) ⟨"/s"⟩ = .ok ⟨⟨"/s"⟩, .empty, [], []⟩ ∧
      ReachedOver ⟨⟨"/s"⟩, .empty, [], []⟩ [systemWithOutput breakingText]
        (visit breakingFile).catalog := by
  have hreached : ReachedOver ⟨⟨"/s"⟩, .empty, [], []⟩ [systemWithOutput breakingText] _ :=
    .load (systemWithOutput breakingText) ⟨"/s/a"⟩ .start
  rw [Catalog.load_of_within breaking_steps.1] at hreached
  exact ⟨Session.catalog_of_start (start_lone breakingText), hreached⟩

end Lone

open Lone in
/-- A run can succeed with a documentation comment that is closed before its end. -/
theorem Java.documentation_breaks_out :
    ∃ plan s fs' stats source,
      (Session.start twinSettings ⟨"/s"⟩ target extension ()).run (system breakingText) =
        (.ok (plan, s), fs') ∧
      (Session.run plan [⟨"/s/a"⟩] s).1 = .ok stats ∧
      (Session.run plan [⟨"/s/a"⟩] s).2.workspace.files.read ⟨"/o/p/M.java"⟩ =
        .ok (Output.bytes source) ∧
      doc "" (some "a */ b") <:+: source ∧ ¬ IsOneComment (doc "" (some "a */ b")) := by
  obtain ⟨-, r, hwithin, hstats, hread⟩ := breaking_steps
  obtain ⟨hrun, -⟩ := run_lone hwithin
  refine ⟨_, _, _, ⟨1, 1, 0, 0⟩, breakingLines, start_lone breakingText, ?_, ?_, ?_, ?_⟩
  · rw [hrun, hstats]
  · rw [hrun]
    exact hread
  · have hdocuments : Documents (.new ⟨"/o"⟩ extension "pbgen") ⟨[breakingFile]⟩ breakingFile _ ""
        breakingMessage.toDescribed := .message List.mem_cons_self rfl
    exact hdocuments.lines
  · rw [isOneComment_doc_iff (Token.forall_mem_of_all (by decide))]
    decide

open Lone in
/-- The comment of the message is closed early, that of the field is not. -/
theorem Java.documentation_closes_iff_breaking :
    Catalog.ofRoot (system breakingText) ⟨"/s"⟩ = .ok ⟨⟨"/s"⟩, .empty, [], []⟩ ∧
      ReachedOver ⟨⟨"/s"⟩, .empty, [], []⟩ [systemWithOutput breakingText]
        (visit breakingFile).catalog ∧
      (visit breakingFile).catalog.graph.file? 0 = some breakingFile ∧
      ∃ text ts parts, Token.tokenize text = .ok ts ∧ Reading none ts parts ∧
        (∃ p ∈ parts, p.Declares breakingMessage.toDescribed ∧
          ∃ t ∈ p.attached, t.HoldsClosingMark) ∧
        ∃ p ∈ parts, p.Declares ⟨"x", some "c // d * e", false⟩ ∧
          ∀ t ∈ p.attached, ¬ t.HoldsClosingMark := by
  have hfile : (visit breakingFile).catalog.graph.file? 0 = some breakingFile := rfl
  obtain ⟨hroot, hreached⟩ := breaking_reached
  refine ⟨hroot, hreached, hfile, ?_⟩
  obtain ⟨-, _, text, ts, parts, -, -, hts, hparts, hall⟩ :=
    Java.documentation_closes_iff hroot hreached hfile
  have hmessage : Documents (.new ⟨"/o"⟩ extension "pbgen") ⟨[breakingFile]⟩ breakingFile _ ""
      breakingMessage.toDescribed := .message List.mem_cons_self rfl
  have hfield : Documents (.new ⟨"/o"⟩ extension "pbgen") ⟨[breakingFile]⟩ breakingFile _ "  "
      ⟨"x", some "c // d * e", false⟩ :=
    .field (m := breakingMessage) (x := ⟨⟨"x", some "c // d * e", false⟩, 1, 0, .base .int32,
      .singular⟩) List.mem_cons_self rfl (by decide)
  obtain ⟨-, -, ⟨p, hp, hdeclares⟩, hiff⟩ := hall _ _ _ _ hmessage
  obtain ⟨-, -, ⟨q, hq, hdeclares'⟩, hiff'⟩ := hall _ _ _ _ hfield
  have hbroken : ¬ IsOneComment (doc "" breakingMessage.comment) := by
    refine mt (isOneComment_doc_iff (Token.forall_mem_of_all (by decide)) _).1 ?_
    decide
  have hwhole : IsOneComment (doc "  " (some "c // d * e")) := by
    refine (isOneComment_doc_iff (Token.forall_mem_of_all (by decide)) _).2 ?_
    rw [← MarkedCommentsLemmas.occursIn_iff]
    decide
  rw [hiff nofun p hp hdeclares] at hbroken
  refine ⟨text, ts, parts, hts, hparts, ⟨p, hp, hdeclares, ?_⟩, q, hq, hdeclares',
    (hiff' nofun q hq hdeclares').1 hwhole⟩
  simpa using hbroken

end SchemaGen
