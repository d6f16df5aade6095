import SchemaGen.Proofs.LexemePattern
import SchemaGen.Proofs.Location
import SchemaGen.SkipList
import Mathlib.Data.List.Basic

/-!
# What skip patterns match

A pattern is matched piece by piece, each literal piece at the first place where it stands. That no
later place has to be tried depends on the slash. If a piece holds one, then a run without slashes
reaches a single place where the piece can stand. If it holds none, then all that lies between the
first place and a later one can be passed by the next star.

A pattern can also be written as a regular expression: what its pieces hold is escaped, and each star
becomes a run of characters other than slashes. This expression is matched by backtracking, and finds
the same paths.

Results:
1. `behindFirst?_sound`, `behindFirst?_first`: a piece is found if it stands anywhere within reach,
   and what is left differs from any other choice by a run without slashes.
2. `matchesChars_iff`: matching piece by piece decides whether a pattern covers a path.
3. `found_expression_iff`: the expression for a pattern finds what the pattern matches.
4. `skips_iff`: what a list of patterns skips.
-/

namespace SchemaGen

/-! ## Definitions -/

namespace SkipPattern

/-- The pattern written `text` covers the start of `path`: cut at its stars, the text consists of a
first piece and of further ones, and the path starts with the first piece and goes on with the
others in their order, each behind some characters without a slash. A step is such a run of
characters with the piece behind it. -/
def Covers (text path : List Char) : Prop :=
  ∃ (first : List Char) (steps : List (List Char × List Char)) (rest : List Char),
    text = ['*'].intercalate (first :: steps.map (·.2)) ∧
    (∀ piece ∈ first :: steps.map (·.2), '*' ∉ piece) ∧
    (∀ step ∈ steps, '/' ∉ step.1) ∧
    path = first ++ steps.flatMap (fun step => step.1 ++ step.2) ++ rest

/-- The pattern written `text` is not too large to compile. -/
def WithinLimit (costs : PatternCosts) (text : String) : Prop :=
  (SkipPattern.mk (Text.split '*' text.toList)).compiledSize costs ≤ costs.limit

instance (costs : PatternCosts) (text : String) : Decidable (WithinLimit costs text) :=
  inferInstanceAs (Decidable (_ ≤ _))

/-- The pieces stand in `path` in their order, each behind some characters without a slash. -/
def Passes (pieces : List (List Char)) (path : List Char) : Prop :=
  ∃ (steps : List (List Char × List Char)) (rest : List Char), steps.map (·.2) = pieces ∧
    (∀ step ∈ steps, '/' ∉ step.1) ∧ path = steps.flatMap (fun step => step.1 ++ step.2) ++ rest

/-! ### Expressions -/

/-- The characters that mean something in an expression. -/
def isMeta (c : Char) : Bool :=
  "\\.+*?()|[]\x7b\x7d^$#&-~".toList.contains c

/-- The expression for a literal text. -/
def escape (piece : List Char) : List Char :=
  piece.flatMap fun c => if isMeta c then ['\\', c] else [c]

/-- The expression for the pattern written `text`. -/
def expression (text : List Char) : List Char :=
  '^' :: "[^/]*".toList.intercalate ((Text.split '*' text).map escape)

/-- The regular expression that is written with literal characters and runs without slashes. -/
def readExpression : List Char → Option Token.Pattern
  | [] => some .empty
  | '[' :: '^' :: '/' :: ']' :: '*' :: cs =>
    (readExpression cs).map (.seq (.star (.char (· ≠ '/'))))
  | '\\' :: c :: cs => if isMeta c then (readExpression cs).map (.seq (.just c)) else none
  | c :: cs => if isMeta c then none else (readExpression cs).map (.seq (.just c))

/-- Whether an expression is found in `path`, only at its front if the expression says so. -/
def found (expression path : List Char) : Bool :=
  match expression with
  | '^' :: cs => (readExpression cs).any fun p => (p.rest? none path).isSome
  | cs => (readExpression cs).any fun p => path.tails.any fun rest => (p.rest? none rest).isSome

end SkipPattern

namespace SkipPatternsLemmas

open SkipPattern

/-! ## 1. The first place of a piece -/

theorem behindFirst?_sound {piece path rest : List Char} (h : behindFirst? piece path = some rest) :
    ∃ run, path = run ++ piece ++ rest ∧ '/' ∉ run := by
  fun_induction behindFirst? piece path with
  | case1 hempty =>
    obtain rfl := Option.some.inj h
    exact ⟨[], by simp [List.isEmpty_iff.1 hempty], List.not_mem_nil⟩
  | case2 => cases h
  | case3 c path hprefix =>
    obtain rfl := Option.some.inj h
    obtain ⟨after, hafter⟩ := List.isPrefixOf_iff_prefix.1 hprefix
    refine ⟨[], ?_, List.not_mem_nil⟩
    rw [← hafter, List.drop_left, List.nil_append]
  | case4 => cases h
  | case5 c path _ hslash ih =>
    obtain ⟨run, rfl, hrun⟩ := ih h
    exact ⟨c :: run, rfl, by simp [Ne.symm hslash, hrun]⟩

/-- Where a piece stands in front of and behind a text without slashes, what the two share out is
free of slashes too: both sides have the slashes of the piece and no others. -/
theorem slash_not_mem_of_overlap {run piece gap : List Char} (h : run ++ piece = piece ++ gap)
    (hrun : '/' ∉ run) : '/' ∉ gap := by
  have hcount := congrArg (List.count '/') h
  rw [List.count_append, List.count_append, List.count_eq_zero.2 hrun] at hcount
  exact List.count_eq_zero.1 (by omega)

theorem behindFirst?_of_front {piece path : List Char} (h : piece <+: path) :
    behindFirst? piece path = some (path.drop piece.length) := by
  cases path with
  | nil =>
    obtain rfl := List.prefix_nil.1 h
    rfl
  | cons c path => rw [behindFirst?, if_pos (List.isPrefixOf_iff_prefix.2 h)]

/-- A piece within reach is found, and between its first place and the given one there is no
slash. -/
theorem behindFirst?_first {run : List Char} (hrun : '/' ∉ run) (piece after : List Char) :
    ∃ gap, '/' ∉ gap ∧ behindFirst? piece (run ++ piece ++ after) = some (gap ++ after) := by
  induction run with
  | nil =>
    refine ⟨[], List.not_mem_nil, ?_⟩
    rw [List.nil_append, behindFirst?_of_front (List.prefix_append piece after), List.drop_left,
      List.nil_append]
  | cons c run ih =>
    by_cases hprefix : piece <+: c :: run ++ piece ++ after
    · -- The piece also stands further in front, where it is found.
      obtain ⟨gap, hgap⟩ : piece <+: c :: run ++ piece :=
        List.prefix_of_prefix_length_le hprefix (List.prefix_append _ after)
          (List.suffix_append _ piece).length_le
      refine ⟨gap, slash_not_mem_of_overlap hgap.symm hrun, ?_⟩
      rw [behindFirst?_of_front hprefix, ← hgap, List.append_assoc, List.drop_left]
    · rw [List.mem_cons, not_or] at hrun
      obtain ⟨gap, hgap, hfound⟩ := ih hrun.2
      refine ⟨gap, hgap, ?_⟩
      rw [List.cons_append, List.cons_append] at hprefix ⊢
      rw [behindFirst?, if_neg (mt List.isPrefixOf_iff_prefix.1 hprefix), if_neg (Ne.symm hrun.1),
        hfound]

/-! ## 2. Matching piece by piece -/

theorem passes_nil (path : List Char) : Passes [] path :=
  ⟨[], path, rfl, by simp, rfl⟩

theorem passes_cons {piece : List Char} {pieces : List (List Char)} {path : List Char} :
    Passes (piece :: pieces) path ↔
      ∃ run after, path = run ++ piece ++ after ∧ '/' ∉ run ∧ Passes pieces after := by
  constructor
  · rintro ⟨steps, rest, hpieces, hruns, rfl⟩
    obtain ⟨⟨run, piece'⟩, steps', rfl, rfl, hpieces'⟩ := List.map_eq_cons_iff.1 hpieces
    rw [List.forall_mem_cons] at hruns
    refine ⟨run, steps'.flatMap (fun step => step.1 ++ step.2) ++ rest, ?_, hruns.1,
      steps', rest, hpieces', hruns.2, rfl⟩
    rw [List.flatMap_cons, List.append_assoc]
  · rintro ⟨run, after, rfl, hrun, steps, rest, rfl, hruns, rfl⟩
    refine ⟨(run, piece) :: steps, rest, rfl, List.forall_mem_cons.2 ⟨hrun, hruns⟩, ?_⟩
    rw [List.flatMap_cons, ← List.append_assoc]

/-- More characters without a slash are passed by the star in front of the first piece. -/
theorem Passes.behind {pieces : List (List Char)} {path gap : List Char} (h : Passes pieces path)
    (hgap : '/' ∉ gap) : Passes pieces (gap ++ path) := by
  cases pieces with
  | nil => exact passes_nil _
  | cons piece pieces =>
    obtain ⟨run, after, rfl, hrun, hafter⟩ := passes_cons.1 h
    refine passes_cons.2 ⟨gap ++ run, after, by simp only [List.append_assoc], ?_, hafter⟩
    rw [List.mem_append, not_or]
    exact ⟨hgap, hrun⟩

theorem foldlM_isSome_iff (pieces : List (List Char)) (path : List Char) :
    (pieces.foldlM (fun rest piece => behindFirst? piece rest) path).isSome = true ↔
      Passes pieces path := by
  induction pieces generalizing path with
  | nil => exact ⟨fun _ => passes_nil path, fun _ => rfl⟩
  | cons piece pieces ih =>
    rw [List.foldlM_cons, passes_cons]
    constructor
    · intro h
      cases hfound : behindFirst? piece path with
      | none => simp [hfound] at h
      | some rest =>
        rw [hfound] at h
        obtain ⟨run, hpath, hrun⟩ := behindFirst?_sound hfound
        exact ⟨run, rest, hpath, hrun, (ih rest).1 h⟩
    · rintro ⟨run, after, rfl, hrun, hafter⟩
      obtain ⟨gap, hgap, hfound⟩ := behindFirst?_first hrun piece after
      rw [hfound]
      exact (ih _).2 (Passes.behind hafter hgap)

theorem matchesChars_cons_iff (first : List Char) (others : List (List Char)) (path : List Char) :
    (SkipPattern.mk (first :: others)).matchesChars path = true ↔
      ∃ after, path = first ++ after ∧ Passes others after := by
  show (if first.isPrefixOf path then _ else false) = true ↔ _
  constructor
  · intro h
    split at h
    · next hprefix =>
      obtain ⟨after, rfl⟩ := List.isPrefixOf_iff_prefix.1 hprefix
      rw [List.drop_left] at h
      exact ⟨after, rfl, (foldlM_isSome_iff others after).1 h⟩
    · cases h
  · rintro ⟨after, rfl, hafter⟩
    rw [if_pos (List.isPrefixOf_iff_prefix.2 (List.prefix_append first after)), List.drop_left]
    exact (foldlM_isSome_iff others after).2 hafter

/-- The pieces of a text are the only texts without stars that it can be put together from. -/
theorem split_eq_iff {text first : List Char} {others : List (List Char)} :
    Text.split '*' text = first :: others ↔
      text = ['*'].intercalate (first :: others) ∧ ∀ piece ∈ first :: others, '*' ∉ piece := by
  rw [LocationLemmas.split_eq_splitOn]
  constructor
  · intro h
    rw [← h, List.intercalate_splitOn]
    refine ⟨rfl, fun piece hpiece => ?_⟩
    rw [← LocationLemmas.split_eq_splitOn] at hpiece
    exact LocationLemmas.not_mem_of_mem_split hpiece
  · rintro ⟨rfl, hpieces⟩
    exact List.splitOn_intercalate '*' hpieces (by simp)

theorem matchesChars_iff (text path : List Char) :
    (SkipPattern.mk (Text.split '*' text)).matchesChars path = true ↔ Covers text path := by
  constructor
  · intro h
    cases hsplit : Text.split '*' text with
    | nil =>
      rw [LocationLemmas.split_eq_splitOn] at hsplit
      exact absurd hsplit (List.splitOn_ne_nil '*' text)
    | cons first others =>
      rw [hsplit, matchesChars_cons_iff] at h
      obtain ⟨after, rfl, steps, rest, rfl, hruns, rfl⟩ := h
      obtain ⟨htext, hpieces⟩ := split_eq_iff.1 hsplit
      exact ⟨first, steps, rest, htext, hpieces, hruns, by rw [List.append_assoc]⟩
  · rintro ⟨first, steps, rest, htext, hpieces, hruns, rfl⟩
    rw [split_eq_iff.2 ⟨htext, hpieces⟩, matchesChars_cons_iff]
    exact ⟨_, List.append_assoc .., steps, rest, rfl, hruns, rfl⟩

/-! ## 3. Expressions -/

/-- A literal text with a pattern behind it. -/
def literal (piece : List Char) (p : Token.Pattern) : Token.Pattern :=
  piece.foldr (fun c p => .seq (.just c) p) p

/-- Pieces, each behind a run without slashes. -/
def passing : List (List Char) → Token.Pattern
  | [] => .empty
  | piece :: pieces => .seq (.star (.char (· ≠ '/'))) (literal piece (passing pieces))

theorem readExpression_cons {c : Char} (h : isMeta c = false) (cs : List Char) :
    readExpression (c :: cs) = (readExpression cs).map (.seq (.just c)) := by
  have hbracket : c ≠ '[' := by
    rintro rfl
    cases h
  have hbackslash : c ≠ '\\' := by
    rintro rfl
    cases h
  rw [readExpression.eq_4 c cs (fun _ hc _ => hbracket hc) fun _ _ hc _ => hbackslash hc, h]
  rfl

/-- A character that means something is read as itself if it is escaped. -/
theorem readExpression_escape (piece cs : List Char) :
    readExpression (escape piece ++ cs) = (readExpression cs).map (literal piece) := by
  induction piece with
  | nil => exact Option.map_id'.symm
  | cons c piece ih =>
    have hread : readExpression (escape (c :: piece) ++ cs) =
        (readExpression (escape piece ++ cs)).map (.seq (.just c)) := by
      rw [escape, List.flatMap_cons, List.append_assoc]
      cases hc : isMeta c with
      | false => exact readExpression_cons hc _
      | true =>
        show (if isMeta c then _ else none) = _
        rw [if_pos hc]
        rfl
    rw [hread, ih, Option.map_map]
    rfl

theorem readExpression_pieces (first : List Char) (others : List (List Char)) :
    readExpression ("[^/]*".toList.intercalate ((first :: others).map escape)) =
      some (literal first (passing others)) := by
  induction others generalizing first with
  | nil =>
    have hread := readExpression_escape first []
    rw [List.append_nil] at hread
    rw [List.map_cons, List.map_nil, List.intercalate_singleton, hread]
    rfl
  | cons piece others ih =>
    rw [List.map_cons, List.map_cons, List.intercalate_cons_cons, List.append_assoc,
      readExpression_escape, ← List.map_cons]
    have hrun (cs : List Char) : readExpression ("[^/]*".toList ++ cs) =
        (readExpression cs).map (.seq (.star (.char (· ≠ '/')))) := rfl
    rw [hrun, ih piece]
    rfl

variable {p : Token.Pattern} {P : List Char → Prop}

/-- What it takes for a literal text to match. -/
theorem isSome_literal (h : ∀ before path, (p.rest? before path).isSome ↔ P path)
    (piece : List Char) (before : Option Char) (path : List Char) :
    ((literal piece p).rest? before path).isSome ↔ ∃ after, path = piece ++ after ∧ P after := by
  induction piece generalizing before path with
  | nil => exact (h before path).trans ⟨fun hp => ⟨path, rfl, hp⟩, by rintro ⟨_, rfl, hp⟩; exact hp⟩
  | cons c piece ih =>
    cases path with
    | nil => simp [literal, Token.Pattern.rest?, Token.Pattern.just]
    | cons d path =>
      show (if decide (d = c) = true then (literal piece p).rest? (some d) path else none).isSome ↔ _
      by_cases hd : d = c
      · subst hd
        rw [if_pos (decide_eq_true rfl), ih]
        simp
      · rw [if_neg (by simpa using hd)]
        simp [hd]

/-- What it takes for a run without slashes to match. -/
theorem isSome_run (h : ∀ before path, (p.rest? before path).isSome ↔ P path)
    (before : Option Char) (path : List Char) :
    ((Token.Pattern.seq (.star (.char (· ≠ '/'))) p).rest? before path).isSome ↔
      ∃ run after, path = run ++ after ∧ '/' ∉ run ∧ P after := by
  have hstop (path : List Char) (hp : P path) :
      ∃ run after, path = run ++ after ∧ '/' ∉ run ∧ P after :=
    ⟨[], path, rfl, List.not_mem_nil, hp⟩
  induction path generalizing before with
  | nil =>
    rw [Token.Pattern.rest?, Token.Pattern.attempt_seq, Token.Pattern.attempt_star_nil]
    refine (h before []).trans ⟨hstop [], ?_⟩
    rintro ⟨run, after, hpath, -, hafter⟩
    rwa [(List.nil_eq_append_iff.1 hpath).2] at hafter
  | cons c path ih =>
    rw [Token.Pattern.rest?, Token.Pattern.attempt_seq, Token.Pattern.attempt_star_cons]
    by_cases hc : c = '/'
    · rw [if_neg (by simpa using hc)]
      refine (h before (c :: path)).trans ⟨hstop _, ?_⟩
      rintro ⟨run, after, hpath, hrun, hafter⟩
      cases run with
      | nil => exact hpath ▸ hafter
      | cons d run =>
        obtain ⟨rfl, -⟩ := List.cons.inj hpath
        exact absurd List.mem_cons_self (hc ▸ hrun)
    · rw [if_pos (by simpa using hc), Option.isSome_or, Bool.or_eq_true]
      constructor
      · rintro (hmore | hend)
        · obtain ⟨run, after, rfl, hrun, hafter⟩ := (ih (some c)).1 hmore
          exact ⟨c :: run, after, rfl, by simp [Ne.symm hc, hrun], hafter⟩
        · exact hstop _ ((h before (c :: path)).1 hend)
      · rintro ⟨run, after, hpath, hrun, hafter⟩
        cases run with
        | nil => exact .inr ((h before (c :: path)).2 (hpath ▸ hafter))
        | cons d run =>
          obtain ⟨rfl, rfl⟩ := List.cons.inj hpath
          exact .inl ((ih (some c)).2 ⟨run, after, rfl, (List.mem_cons.not.1 hrun <| .inr ·), hafter⟩)

theorem isSome_passing (pieces : List (List Char)) (before : Option Char) (path : List Char) :
    ((passing pieces).rest? before path).isSome ↔ Passes pieces path := by
  induction pieces generalizing before path with
  | nil => exact ⟨fun _ => passes_nil path, fun _ => rfl⟩
  | cons piece pieces ih =>
    rw [passing, isSome_run (isSome_literal ih piece), passes_cons]
    constructor
    · rintro ⟨run, _, rfl, hrun, after, rfl, hafter⟩
      exact ⟨run, after, by rw [List.append_assoc], hrun, hafter⟩
    · rintro ⟨run, after, rfl, hrun, hafter⟩
      exact ⟨run, piece ++ after, by rw [List.append_assoc], hrun, after, rfl, hafter⟩

theorem found_expression_iff (text path : List Char) :
    found (expression text) path = true ↔
      (SkipPattern.mk (Text.split '*' text)).matchesChars path = true := by
  rw [expression]
  show ((readExpression _).any fun p => (p.rest? none path).isSome) = true ↔ _
  cases hsplit : Text.split '*' text with
  | nil =>
    rw [LocationLemmas.split_eq_splitOn] at hsplit
    exact absurd hsplit (List.splitOn_ne_nil '*' text)
  | cons first others =>
    rw [readExpression_pieces, matchesChars_cons_iff]
    exact isSome_literal (isSome_passing others) first none path

/-! ## 4. Lists of patterns -/

theorem ofTexts_of_withinLimit {costs : PatternCosts} {texts : List String}
    (h : ∀ text ∈ texts, WithinLimit costs text) :
    SkipList.ofTexts costs texts = .ok ⟨texts.map fun text => ⟨Text.split '*' text.toList⟩⟩ := by
  induction texts with
  | nil => rfl
  | cons text texts ih =>
    rw [List.forall_mem_cons] at h
    have htext : ofText? costs text = some ⟨Text.split '*' text.toList⟩ := if_pos h.1
    rw [SkipList.ofTexts, htext, ih h.2]
    rfl

end SkipPatternsLemmas

open SkipPatternsLemmas

/-- Whatever patterns cost, those of a size that can be compiled make a skip list, and it skips just
the paths whose start one of the patterns covers. These are the paths that the expression for one of
the patterns is found in. -/
theorem SkipList.skips_iff (costs : PatternCosts) {texts : List String}
    (hsize : ∀ text ∈ texts, SkipPattern.WithinLimit costs text) :
    ∃ list, ofTexts costs texts = .ok list ∧
      ∀ path : String,
        (list.skips path = true ↔ ∃ text ∈ texts, SkipPattern.Covers text.toList path.toList) ∧
        (list.skips path = true ↔
          ∃ text ∈ texts, SkipPattern.found (SkipPattern.expression text.toList) path.toList) := by
  refine ⟨_, ofTexts_of_withinLimit hsize, fun path => ?_⟩
  rw [skips, List.any_map, List.any_eq_true]
  simp only [Function.comp_apply, found_expression_iff, matchesChars_iff, and_self]

/-- The first `ab` is not the one that a star has to stop at in the end, and a dot is a dot. -/
theorem SkipList.skips_iff_of_overlap :
    (∀ text ∈ ["lib/*ab*b.*", "a.b"], SkipPattern.WithinLimit .usual text) ∧
      ∃ list, ofTexts .usual ["lib/*ab*b.*", "a.b"] = .ok list ∧
        (∀ path : String, list.skips path = true ↔
          ∃ text ∈ ["lib/*ab*b.*", "a.b"], SkipPattern.Covers text.toList path.toList) ∧
        list.skips "lib/aabab.x/y" = true ∧ list.skips "lib/ab/b." = false ∧
        list.skips "axb" = false := by
  have hsize : ∀ text ∈ ["lib/*ab*b.*", "a.b"], SkipPattern.WithinLimit .usual text := by
    decide +kernel
  obtain ⟨list, hlist, hskips⟩ := skips_iff .usual hsize
  refine ⟨hsize, list, hlist, fun path => (hskips path).1, ?_⟩
  rw [ofTexts_of_withinLimit hsize] at hlist
  obtain rfl := Except.ok.inj hlist
  decide +kernel

end SchemaGen
