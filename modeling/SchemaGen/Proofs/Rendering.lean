import SchemaGen.Document
import SchemaGen.Proofs.Words

/-!
# The canonical text of a document

`Document.render` writes a document as text: headers in order, then messages, then enumerations, one
group of words on a line, the comment of a declaration on a line of its own before it. The tokens of
such a text are the words of its lines, each on its line (`tokenize_render`).
-/

namespace SchemaGen

open Text (Position isBlank quote)

/-! ## Writing -/

/-- The words of a header. -/
def Header.words (h : Header) : List String :=
  match h.kind with
  | .level => ["syntax", "=", quote h.value, ";"]
  | .package => ["package", h.value, ";"]
  | .importing => ["import", quote h.value, ";"]
  | .option => ["option", h.name, "=", quote h.value, ";"]

/-- A comment as a line comment. -/
def commentWord (comment : String) : String :=
  "// " ++ comment

/-- The line before a declaration that holds its comment. -/
def Described.commentLines (d : Described) : List (List String) :=
  match d.comment with
  | some comment => [[commentWord comment]]
  | none => []

/-- The settings that mark a field or a constant as ignored. -/
def markWords (ignored : Bool) : List String :=
  if ignored then ["[", "ignore", "=", "true", "]"] else []

/-- The words of `name = number [settings];`. -/
def numberedWords (d : Described) (number : Int) : List String :=
  [d.name, "=", toString number] ++ markWords d.ignored ++ [";"]

/-- The words of a type. -/
def TypeExpr.words : TypeExpr → List String
  | named name => [name]
  | map key value => ["map", "<", key, ",", value, ">"]

/-- The word before the type of a field. -/
def Cardinality.label : Cardinality → String
  | singular => "optional"
  | repeated => "repeated"

/-- The lines of a constant. -/
def ConstantDecl.lines (c : ConstantDecl) : List (List String) :=
  c.commentLines ++ [numberedWords c.toDescribed c.number]

/-- The lines of a field. -/
def FieldDecl.lines (f : FieldDecl) : List (List String) :=
  f.commentLines ++ [f.cardinality.label :: f.type.words ++ numberedWords f.toDescribed f.number]

/-- The lines of a definition that starts with `keyword`, with `lines` for its members. -/
def Declaration.lines {μ : Type} (keyword : String) (lines : μ → List (List String))
    (d : Declaration μ) : List (List String) :=
  d.commentLines ++ [keyword, d.name, "\x7b"] ::
    (if d.ignored then [["option", "ignore", "=", "true", ";"]] else []) ++
    d.members.flatMap lines ++ [["\x7d"]]

namespace Document

/-- The lines of a document. -/
def lines (d : Document) : List (List String) :=
  d.headers.map Header.words ++ d.messages.flatMap (Declaration.lines "message" FieldDecl.lines) ++
    d.enums.flatMap (Declaration.lines "enum" ConstantDecl.lines)

/-- Whether the word `v` stands directly behind the word `w`, without a space. -/
def tight (w v : String) : Bool :=
  w ∈ ["[", "<"] || v ∈ [";", ",", "]", "<", ">"]

/-- What stands between the word `w` and the words behind it. -/
def gap (w : String) : List String → List Char
  | [] => []
  | v :: _ => if tight w v then [] else [' ']

/-- The characters of a line. -/
def lineChars : List String → List Char
  | [] => []
  | w :: ws => w.toList ++ (gap w ws ++ lineChars ws)

/-- The characters of lines, each with a newline at its end. -/
def linesChars (lines : List (List String)) : List Char :=
  lines.flatMap fun words => lineChars words ++ ['\n']

/-- The canonical text of a document. -/
def render (d : Document) : String :=
  String.ofList (linesChars d.lines)

end Document

/-! ## Reading it back word by word -/

namespace Token

open Document (gap lineChars linesChars tight)

/-- The token is the word `w` on the line `line`. -/
structure Writes (line : Nat) (w : String) (t : Token) : Prop where
  kind : t.kind = kindOf w.toList
  text : t.text = w
  line : t.position.line = line

/-- The tokens of a line `words`. -/
inductive Row (line : Nat) : List String → List Token → Prop
  | nil : Row line [] []
  | cons {w : String} {words : List String} {t : Token} {ts : List Token} (hword : Writes line w t)
      (hwords : Row line words ts) : Row line (w :: words) (t :: ts)

/-- The tokens of lines from the line `line` on, and the end of the file. -/
inductive Laid : Nat → List (List String) → List Token → Prop
  | done {line : Nat} {mark : Token} (hmark : mark.kind = .endOfFile) : Laid line [] [mark]
  | row {line : Nat} {words : List String} {lines : List (List String)} {ts rest : List Token}
      (hrow : Row line words ts) (hrest : Laid (line + 1) lines rest) :
      Laid line (words :: lines) (ts ++ rest)

/-- Words that can be read back from their line. -/
inductive Legible : List String → Prop
  | words {w : String} {ws : List String} (hwords : ∀ v ∈ w :: ws, IsWord v.toList) :
      Legible (w :: ws)
  | comment {comment : String} (hline : '\n' ∉ comment.toList) : Legible [commentWord comment]

/-- No blank stands at the front. -/
def Started (cs : List Char) : Prop :=
  ∀ c, cs.head? = some c → isBlank c = false

variable {p : Position} {rest : List Char} {w : String}

theorem line_after {cs : List Char} (h : '\n' ∉ cs) : (p.after cs).line = p.line := by
  induction cs generalizing p with
  | nil => rfl
  | cons c cs ih =>
    rw [List.mem_cons, not_or] at h
    have hstep : (p.step c).line = p.line := by rw [Position.step, if_neg (Ne.symm h.1)]
    exact (ih h.2).trans hstep

theorem scan_lexeme {cs : List Char} {n : Nat} (h : lexemeLength? cs = some n) :
    scan p cs =
      match scan (p.after (cs.take n)) (cs.drop n) with
      | .error e => .error e
      | .ok tokens =>
        if (cs.take n).all isBlank then .ok tokens
        else .ok (⟨kindOf (cs.take n), String.ofList (cs.take n), p⟩ :: tokens) := by
  rw [scan]
  split
  · next m hm =>
    obtain rfl : n = m := Option.some.inj (h.symm.trans hm)
    rfl
  · next hnone =>
    rw [hnone] at h
    cases h

theorem lexemeLength?_blank {b : Char} (hb : b = ' ' ∨ b = '\n') (hrest : Started rest) :
    lexemeLength? (b :: rest) = some 1 := by
  have hall : ∀ b ∈ [' ', '\n'], b ≠ '/' ∧ b ≠ '"' ∧ b ≠ '-' ∧ Text.isDigit b = false ∧ b ≠ '.' ∧
      isNameStart b = false ∧ isSymbol b = false ∧ isBlank b = true :=
    forall_mem_of_all (by decide)
  obtain ⟨hslash, hquote, hminus, hdigit, hdot, hstart, hsymbol, hblank⟩ :=
    hall b (by simpa using hb)
  have hsymbol' : symbolLength? (b :: rest) = none := by simp [symbolLength?, hsymbol]
  have hrun : rest.takeWhile isBlank = [] := by
    cases rest with
    | nil => rfl
    | cons c rest => simp [hrest c rfl]
  have hblanks : blanksLength? (b :: rest) = some 1 := by simp [blanksLength?, hblank, hrun]
  rw [lexemeLength?_of_ne_slash hslash, stringLength?_of_ne hquote,
    integerLength?_of_not_digit hminus hdigit, nameLength?_of_not_start hdot hstart, hsymbol',
    hblanks]
  rfl

theorem scan_blank {b : Char} (hb : b = ' ' ∨ b = '\n') (hrest : Started rest) :
    scan p (b :: rest) = scan (p.step b) rest := by
  have hblank : isBlank b = true := by
    rcases hb with rfl | rfl <;> decide
  have hstep : p.after [b] = p.step b := rfl
  rw [scan_lexeme (lexemeLength?_blank hb hrest), List.take_succ_cons, List.take_zero, hstep,
    List.drop_succ_cons, List.drop_zero]
  cases scan (p.step b) rest with
  | error e => rfl
  | ok tokens => simp [hblank]

theorem scan_word (hvisible : ∃ c cs, w.toList = c :: cs ∧ isBlank c = false)
    (hlength : lexemeLength? (w.toList ++ rest) = some w.toList.length) {ts : List Token}
    (hrest : scan (p.after w.toList) rest = .ok ts) :
    scan p (w.toList ++ rest) = .ok (⟨kindOf w.toList, w, p⟩ :: ts) := by
  have hall : w.toList.all isBlank = false := by
    obtain ⟨c, cs, hw, hc⟩ := hvisible
    simp [hw, hc]
  rw [scan_lexeme hlength, List.take_left, List.drop_left, hrest]
  simp [hall]

theorem started_of_visible {w : List Char} (h : ∃ c cs, w = c :: cs ∧ isBlank c = false)
    (rest : List Char) : Started (w ++ rest) := by
  obtain ⟨c, cs, rfl, hc⟩ := h
  intro d hd
  obtain rfl : c = d := Option.some.inj hd
  exact hc

/-- A word ends where the gap before the next word starts. -/
theorem lexemeLength?_before {v : String} {ws : List String} (hw : IsWord w.toList)
    (rest : List Char) :
    lexemeLength? (w.toList ++ (gap w (v :: ws) ++ (v.toList ++ rest))) =
      some w.toList.length := by
  rw [gap]
  split
  · next htight =>
    rcases Bool.or_eq_true_iff.1 htight with hopening | hclosing
    · have hw' : w = "[" ∨ w = "<" := by simpa using hopening
      rcases hw' with rfl | rfl
      · exact lexemeLength?_symbol (by decide) _
      · exact lexemeLength?_symbol (by decide) _
    · refine hw.length ?_
      have hv : v = ";" ∨ v = "," ∨ v = "]" ∨ v = "<" ∨ v = ">" := by simpa using hclosing
      rcases hv with rfl | rfl | rfl | rfl | rfl
      · exact ⟨';', _, rfl, by decide⟩
      · exact ⟨',', _, rfl, by decide⟩
      · exact ⟨']', _, rfl, by decide⟩
      · exact ⟨'<', _, rfl, by decide⟩
      · exact ⟨'>', _, rfl, by decide⟩
  · exact hw.length ⟨' ', _, rfl, by decide⟩

/-- A word ends where the gap behind it starts. -/
theorem lexemeLength?_gap {ws : List String} (hw : IsWord w.toList) (rest : List Char) :
    lexemeLength? (w.toList ++ (gap w ws ++ (lineChars ws ++ '\n' :: rest))) =
      some w.toList.length := by
  cases ws with
  | nil => exact hw.length ⟨'\n', rest, rfl, by decide⟩
  | cons v ws =>
    rw [lineChars, List.append_assoc]
    exact lexemeLength?_before hw _

/-- The gap before a word holds at most a space, which leads to no other line. -/
theorem scan_between (w : String) {v : String} (ws : List String)
    (hv : ∃ c cs, v.toList = c :: cs ∧ isBlank c = false) (p : Position) (rest : List Char) :
    ∃ q : Position, q.line = p.line ∧
      scan p (gap w (v :: ws) ++ (v.toList ++ rest)) = scan q (v.toList ++ rest) := by
  rw [gap]
  split
  · exact ⟨p, rfl, rfl⟩
  · exact ⟨p.step ' ', rfl, scan_blank (.inl rfl) (started_of_visible hv rest)⟩

theorem scan_words {words : List String} (hwords : ∀ w ∈ words, IsWord w.toList)
    (hrest : Started rest) (p : Position) :
    ∃ q, q.line = p.line + 1 ∧ ∀ ts, scan q rest = .ok ts →
      ∃ row, scan p (lineChars words ++ '\n' :: rest) = .ok (row ++ ts) ∧ Row p.line words row := by
  induction words generalizing p with
  | nil =>
    refine ⟨p.step '\n', rfl, fun ts hts => ⟨[], ?_, .nil⟩⟩
    exact (scan_blank (.inr rfl) hrest).trans hts
  | cons w ws ih =>
    rw [List.forall_mem_cons] at hwords
    obtain ⟨hw, hws⟩ := hwords
    have hline := line_after (p := p) hw.newline
    obtain ⟨q, hq, hgap⟩ : ∃ q : Position, q.line = p.line ∧
        scan (p.after w.toList) (gap w ws ++ (lineChars ws ++ '\n' :: rest)) =
          scan q (lineChars ws ++ '\n' :: rest) := by
      cases ws with
      | nil => exact ⟨_, hline, rfl⟩
      | cons v ws =>
        have hv := (hws v List.mem_cons_self).visible
        obtain ⟨q, hq, hgap⟩ := scan_between w ws hv (p.after w.toList) (gap v ws ++ lineChars ws ++
          '\n' :: rest)
        rw [lineChars, List.append_assoc]
        exact ⟨q, hq.trans hline, hgap⟩
    obtain ⟨next, hnext, hih⟩ := ih hws q
    refine ⟨next, hnext.trans (by rw [hq]), fun ts hts => ?_⟩
    obtain ⟨row, hrow, hrows⟩ := hih ts hts
    refine ⟨⟨kindOf w.toList, w, p⟩ :: row, ?_, .cons ⟨rfl, rfl, rfl⟩ (hq ▸ hrows)⟩
    rw [lineChars, List.append_assoc, List.append_assoc]
    exact scan_word hw.visible (lexemeLength?_gap hw rest) (hgap.trans hrow)

theorem scan_comment {comment : String} (hline : '\n' ∉ comment.toList) (hrest : Started rest)
    (p : Position) {ts : List Token}
    (hts : scan ((p.after (commentWord comment).toList).step '\n') rest = .ok ts) :
    scan p (lineChars [commentWord comment] ++ '\n' :: rest) =
      .ok (⟨kindOf (commentWord comment).toList, commentWord comment, p⟩ :: ts) := by
  have hchars : (commentWord comment).toList = '/' :: '/' :: (' ' :: comment.toList) :=
    String.toList_append
  have hlength : lexemeLength? ((commentWord comment).toList ++ '\n' :: rest) =
      some (commentWord comment).toList.length := by
    rw [hchars]
    exact lexemeLength?_lineComment (by simp [hline]) rest
  have hline' : lineChars [commentWord comment] = (commentWord comment).toList := by
    simp [lineChars, gap]
  rw [hline']
  refine scan_word ⟨_, _, hchars, by decide⟩ hlength ?_
  rw [scan_blank (.inr rfl) hrest, hts]

/-- The tokens of a line are its words, and the tokens behind it start on the next line. -/
theorem scan_line {words : List String} (hwords : Legible words) (hrest : Started rest)
    (p : Position) :
    ∃ q, q.line = p.line + 1 ∧ ∀ ts, scan q rest = .ok ts →
      ∃ row, scan p (lineChars words ++ '\n' :: rest) = .ok (row ++ ts) ∧ Row p.line words row := by
  cases hwords with
  | words hwords => exact scan_words hwords hrest p
  | @comment comment hline =>
    have hchars : '\n' ∉ (commentWord comment).toList := by
      rw [commentWord, String.toList_append]
      simp [hline]
    refine ⟨(p.after (commentWord comment).toList).step '\n', ?_, fun ts hts => ?_⟩
    · rw [Position.step, if_pos rfl, line_after hchars]
    · exact ⟨[_], scan_comment hline hrest p hts, .cons ⟨rfl, rfl, rfl⟩ .nil⟩

theorem started_linesChars {lines : List (List String)} (h : ∀ words ∈ lines, Legible words) :
    Started (linesChars lines) := by
  cases lines with
  | nil => exact fun _ => nofun
  | cons words lines =>
    rw [linesChars, List.flatMap_cons, List.append_assoc]
    cases h words List.mem_cons_self with
    | @words w ws hwords =>
      rw [lineChars, List.append_assoc]
      exact started_of_visible (hwords w List.mem_cons_self).visible _
    | comment =>
      rw [lineChars, List.append_assoc, commentWord, String.toList_append, List.append_assoc]
      exact started_of_visible ⟨'/', _, rfl, by decide⟩ _

theorem scan_lines {lines : List (List String)} (h : ∀ words ∈ lines, Legible words)
    (p : Position) : ∃ ts, scan p (linesChars lines) = .ok ts ∧ Laid p.line lines ts := by
  induction lines generalizing p with
  | nil => exact ⟨_, by rw [linesChars, List.flatMap_nil, scan]; rfl, .done rfl⟩
  | cons words lines ih =>
    rw [List.forall_mem_cons] at h
    obtain ⟨q, hq, hscan⟩ := scan_line h.1 (started_linesChars h.2) p
    obtain ⟨rest, hrest, hlaid⟩ := ih h.2 q
    obtain ⟨row, hrow, hwords⟩ := hscan rest hrest
    refine ⟨row ++ rest, ?_, .row hwords (hq ▸ hlaid)⟩
    rw [linesChars, List.flatMap_cons, List.append_assoc]
    exact hrow

/-- The tokens of a canonical text are the words of its lines. -/
theorem tokenize_render {d : Document} (h : ∀ words ∈ d.lines, Legible words) :
    ∃ ts, tokenize d.render = .ok ts ∧ Laid 1 d.lines ts := by
  rw [tokenize, Document.render, String.toList_ofList]
  exact scan_lines h .start

end Token

end SchemaGen
