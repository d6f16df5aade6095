import SchemaGen.Proofs.Location
import SchemaGen.Proofs.Words
import Mathlib.Data.List.Basic

/-!
# Paths that are put together

Paths are compared by their components. A path that is put together from a directory, a name and an
extension shows the directory and the name again, whatever the extension is: also one with slashes
and dots in it.

Results:
1. `Path.components_join`, `Path.names_join`: the components of a path that is joined.
2. `Path.same_file_iff`: files of the same extension are the same just if their directories and
   their names are.
-/

namespace SchemaGen

/-! ## Definitions -/

/-- The name in a component. -/
def PathComponent.named? : PathComponent → Option String
  | root | here => none
  | up => some ".."
  | name piece => some piece

/-- The pieces of a path that are more than a dot. -/
def Path.names (p : Path) : List String :=
  p.pieces.filter (· ≠ ".")

/-- A name that can stand in front of an extension. -/
def IsStem (name : String) : Prop :=
  name ≠ "" ∧ name ≠ "." ∧ '/' ∉ name.toList

/-- What an extension adds to the last piece of a path. -/
def extensionHead (extension : String) : String :=
  String.ofList ((Text.split '/' extension.toList).headD [])

/-- The pieces that an extension with slashes adds to a path. -/
def extensionPieces (extension : String) : List String :=
  ((Text.split '/' extension.toList).tail.filter (!·.isEmpty)).map String.ofList

/-- The pieces that an extension with slashes adds to a path, without dots. -/
def extensionNames (extension : String) : List String :=
  (extensionPieces extension).filter (· ≠ ".")

/-! ## 1. Joined paths -/

namespace OutputPathsLemmas

theorem split_ne_nil (sep : Char) (cs : List Char) : Text.split sep cs ≠ [] := by
  rw [LocationLemmas.split_eq_splitOn]
  exact List.splitOn_ne_nil sep cs

theorem split_append_sep (sep : Char) (xs ys : List Char) :
    Text.split sep (xs ++ sep :: ys) = Text.split sep xs ++ Text.split sep ys := by
  induction xs with
  | nil => simp [Text.split]
  | cons c xs ih =>
    rw [List.cons_append, Text.split, Text.split, ih]
    by_cases hc : c = sep
    · rw [if_pos hc, if_pos hc, List.cons_append]
    · rw [if_neg hc, if_neg hc]
      cases hsplit : Text.split sep xs with
      | nil => exact absurd hsplit (split_ne_nil sep xs)
      | cons piece pieces => rfl

theorem split_append_of_not_mem {sep : Char} {xs : List Char} (h : sep ∉ xs) (ys : List Char) :
    Text.split sep (xs ++ ys) =
      (xs ++ (Text.split sep ys).headD []) :: (Text.split sep ys).tail := by
  induction xs with
  | nil =>
    cases hsplit : Text.split sep ys with
    | nil => exact absurd hsplit (split_ne_nil sep ys)
    | cons piece pieces => simp [hsplit]
  | cons c xs ih =>
    obtain ⟨hc, hxs⟩ := not_or.1 (mt List.mem_cons.2 h)
    rw [List.cons_append, Text.split, if_neg (Ne.symm hc), ih hxs]
    rfl

theorem words_append_sep (sep : Char) {s : String} {xs ys : List Char}
    (h : s.toList = xs ++ sep :: ys) :
    Text.words sep s = Text.words sep (String.ofList xs) ++ Text.words sep (String.ofList ys) := by
  rw [Text.words, h, split_append_sep, List.filter_append, List.map_append, Text.words, Text.words,
    String.toList_ofList, String.toList_ofList]

end OutputPathsLemmas

open OutputPathsLemmas

namespace Path

theorem pieces_join (p : Path) {q : Path} (hq : q.isAbsolute = false) :
    (p.join q).pieces = p.pieces ++ q.pieces := by
  unfold join
  rw [if_neg (by simp [hq])]
  split
  · next hends =>
    rcases Bool.or_eq_true_iff.1 hends with hempty | hslash
    · have htext : p.text = "" := by simpa using hempty
      simp [pieces, htext, Text.words, Text.split]
    · obtain ⟨front, hfront⟩ := List.getLast?_eq_some_iff.1 (of_decide_eq_true hslash)
      have hjoined : (p.text ++ q.text).toList = front ++ '/' :: q.text.toList := by
        rw [String.toList_append, hfront, List.append_assoc]
        rfl
      have hself : p.text.toList = front ++ '/' :: [] := hfront
      rw [pieces, words_append_sep '/' hjoined, pieces, words_append_sep '/' hself, pieces,
        String.ofList_toList]
      simp [Text.words, Text.split]
  · have hjoined : (p.text ++ "/" ++ q.text).toList = p.text.toList ++ '/' :: q.text.toList := by
      simp
    rw [pieces, words_append_sep '/' hjoined, String.ofList_toList, String.ofList_toList, pieces,
      pieces]

theorem isAbsolute_join_of_relative (p : Path) {q : Path} (hq : q.isAbsolute = false) :
    (p.join q).isAbsolute = p.isAbsolute := by
  have hq' : q.text.toList.head? ≠ some '/' := of_decide_eq_false hq
  unfold join
  rw [if_neg (by simp [hq])]
  cases htext : p.text.toList with
  | nil =>
    have hempty : p.text = "" := by simpa using htext
    simp [isAbsolute, hempty, hq']
  | cons c cs =>
    have hne : p.text ≠ "" := by
      intro hempty
      simp [hempty] at htext
    split <;> simp [isAbsolute, htext]

theorem names_join (p : Path) {q : Path} (hq : q.isAbsolute = false) :
    (p.join q).names = p.names ++ q.names := by
  rw [names, pieces_join p hq, List.filter_append, names, names]

theorem names_eq_filterMap (p : Path) : p.names = p.components.filterMap PathComponent.named? := by
  have hsteps : (p.pieces.map PathComponent.ofPiece).filterMap PathComponent.named? = p.names := by
    rw [List.filterMap_map, names, ← List.filterMap_eq_filter]
    refine List.filterMap_congr fun piece _ => ?_
    show (PathComponent.ofPiece piece).named? = Option.guard _ piece
    unfold PathComponent.ofPiece
    split
    · next hdot => simp [PathComponent.named?, Option.guard, hdot]
    · next hdot =>
      split
      · next hdots => simp [PathComponent.named?, Option.guard, hdots]
      · simp [PathComponent.named?, Option.guard, hdot]
  have hfilter (steps : List PathComponent) :
      (steps.filter (· ≠ .here)).filterMap PathComponent.named? =
        steps.filterMap PathComponent.named? := by
    rw [List.filterMap_filter]
    refine List.filterMap_congr fun c _ => ?_
    cases c <;> rfl
  rw [← hsteps]
  unfold components
  simp only
  split
  · exact (hfilter _).symm
  · split
    · next rest hrest =>
      rw [hrest]
      exact (hfilter rest).symm
    · exact (hfilter _).symm

theorem names_of_same {p q : Path} (h : p.same q = true) : p.names = q.names := by
  rw [names_eq_filterMap, names_eq_filterMap, of_decide_eq_true h]

/-- The components that pieces of a path are when none of them is its first. -/
def innerSteps (pieces : List String) : List PathComponent :=
  (pieces.map PathComponent.ofPiece).filter (· ≠ .here)

theorem innerSteps_append (ps qs : List String) :
    innerSteps (ps ++ qs) = innerSteps ps ++ innerSteps qs := by
  rw [innerSteps, List.map_append, List.filter_append, innerSteps, innerSteps]

theorem components_of_absolute {p : Path} (habs : p.isAbsolute = true) :
    p.components = .root :: innerSteps p.pieces :=
  if_pos habs

theorem components_of_dot {p : Path} (habs : p.isAbsolute = false) {pieces : List String}
    (hdot : p.pieces = "." :: pieces) : p.components = .here :: innerSteps pieces := by
  rw [components, if_neg (by simp [habs]), hdot]
  rfl

theorem components_of_relative {p : Path} (habs : p.isAbsolute = false)
    (hdot : p.pieces.head? ≠ some ".") : p.components = innerSteps p.pieces := by
  rw [components, if_neg (by simp [habs])]
  cases hpieces : p.pieces with
  | nil => rfl
  | cons piece pieces =>
    have hne : piece ≠ "." := by
      intro heq
      exact hdot (by rw [hpieces, heq, List.head?_cons])
    have hstep : PathComponent.ofPiece piece ≠ .here := by
      unfold PathComponent.ofPiece
      rw [if_neg hne]
      split <;> simp
    rw [List.map_cons]
    split
    · next rest hrest => exact absurd (List.cons.inj hrest).1 hstep
    · rfl

/-- A dot at the front of `q` would be a component of `q`, but none of the joined path. -/
theorem components_join (p : Path) {q : Path} (hq : q.isAbsolute = false)
    (hdot : q.pieces.head? ≠ some ".") : (p.join q).components = p.components ++ q.components := by
  have habs := isAbsolute_join_of_relative p hq
  have hpieces := pieces_join p hq
  rw [components_of_relative hq hdot]
  cases hp : p.isAbsolute with
  | true =>
    rw [components_of_absolute (habs.trans hp), hpieces, innerSteps_append,
      components_of_absolute hp, List.cons_append]
  | false =>
    by_cases hfirst : p.pieces.head? = some "."
    · obtain ⟨rest, hrest⟩ := List.head?_eq_some_iff.1 hfirst
      rw [hrest, List.cons_append] at hpieces
      rw [components_of_dot (habs.trans hp) hpieces, innerSteps_append, components_of_dot hp hrest,
        List.cons_append]
    · have hjoined : (p.join q).pieces.head? ≠ some "." := by
        rw [hpieces]
        cases hp' : p.pieces with
        | nil => exact hdot
        | cons piece pieces => rwa [hp'] at hfirst
      rw [components_of_relative (habs.trans hp) hjoined, hpieces, innerSteps_append,
        components_of_relative hp hfirst]

end Path

theorem PathComponent.ofPiece_injective : Function.Injective PathComponent.ofPiece := by
  intro a b h
  unfold ofPiece at h
  split at h <;> split at h <;> grind

/-! ## 2. File names -/

theorem isStem_of_isName {name : String} (h : Token.IsName name.toList) : IsStem name := by
  obtain ⟨c, cs, hname, hfirst⟩ := Token.exists_start_of_isName h
  rw [hname] at h
  obtain ⟨hstart, htail⟩ := Token.isName_cons_iff.1 h
  refine ⟨?_, ?_, ?_⟩
  · intro hempty
    simp [hempty] at hname
  · intro hdot
    have hlist : ['.'] = c :: cs := by
      rw [← hname, hdot]
      rfl
    obtain ⟨rfl, rfl⟩ := List.cons.inj hlist
    simp [Token.isNameStart] at hstart
  · rw [hname, List.mem_cons]
    intro hslash
    rcases hslash with heq | hmem
    · exact (Token.only_name hfirst).1 heq.symm
    · rcases Token.mem_of_nameTail htail hmem with hchar | hdot
      · simp [Token.isNameChar] at hchar
      · cases hdot

theorem IsStem.toList_ne_nil {name : String} (h : IsStem name) : name.toList ≠ [] := by
  simpa using h.1

namespace OutputPathsLemmas

variable {name : String} (h : IsStem name) (extension : String)

include h

theorem isAbsolute_fileName : (Path.mk (name ++ extension)).isAbsolute = false := by
  obtain ⟨c, cs, hname⟩ := List.exists_cons_of_ne_nil h.toList_ne_nil
  have hc : c ≠ '/' := by
    intro heq
    exact h.2.2 (by rw [hname, heq]; exact List.mem_cons_self)
  simp [Path.isAbsolute, hname, hc]

theorem pieces_fileName :
    (Path.mk (name ++ extension)).pieces =
      (name ++ extensionHead extension) :: extensionPieces extension := by
  obtain ⟨c, cs, hname⟩ := List.exists_cons_of_ne_nil h.toList_ne_nil
  rw [Path.pieces, Text.words, String.toList_append, split_append_of_not_mem h.2.2,
    List.filter_cons_of_pos (by simp [hname]), List.map_cons, extensionPieces]
  congr 1
  rw [← String.toList_inj, String.toList_ofList, String.toList_append, extensionHead,
    String.toList_ofList]

theorem fileName_ne_dot : name ++ extensionHead extension ≠ "." := by
  intro hdot
  obtain ⟨c, cs, hname⟩ := List.exists_cons_of_ne_nil h.toList_ne_nil
  have hlist : c :: (cs ++ (extensionHead extension).toList) = ['.'] := by
    rw [← List.cons_append, ← hname, ← String.toList_append, hdot]
    rfl
  obtain ⟨rfl, hnil⟩ := List.cons.inj hlist
  obtain ⟨rfl, -⟩ := List.append_eq_nil_iff.1 hnil
  exact h.2.1 (String.toList_inj.1 hname)

end OutputPathsLemmas

theorem Path.names_file (dir : Path) {name : String} (h : IsStem name) (extension : String) :
    (dir / (name ++ extension)).names =
      dir.names ++ (name ++ extensionHead extension) :: extensionNames extension := by
  show (dir.join ⟨name ++ extension⟩).names = _
  rw [names_join dir (isAbsolute_fileName h extension)]
  show _ ++ (Path.mk (name ++ extension)).pieces.filter (· ≠ ".") = _
  rw [pieces_fileName h, List.filter_cons_of_pos (by simpa using fileName_ne_dot h extension),
    extensionNames]

/-- Names in front of the same extension stay apart, whatever the extension is. -/
theorem Path.same_file_iff {dir dir' : Path} {name name' : String} (h : IsStem name)
    (h' : IsStem name') (extension : String) :
    (dir / (name ++ extension)).same (dir' / (name' ++ extension)) = true ↔
      dir.same dir' = true ∧ name = name' := by
  have hjoin {dir : Path} {name : String} (h : IsStem name) :
      (dir / (name ++ extension)).components = dir.components ++
        (.ofPiece (name ++ extensionHead extension) ::
          innerSteps (extensionPieces extension)) := by
    have hpieces := pieces_fileName h extension
    have hdot := fileName_ne_dot h extension
    have hfirst : (Path.mk (name ++ extension)).pieces.head? ≠ some "." := by
      rw [hpieces]
      simpa using hdot
    have hhere : PathComponent.ofPiece (name ++ extensionHead extension) ≠ .here := by
      intro heq
      exact hdot (PathComponent.ofPiece_injective heq)
    show (dir.join ⟨name ++ extension⟩).components = _
    rw [components_join dir (isAbsolute_fileName h extension) hfirst,
      components_of_relative (isAbsolute_fileName h extension) hfirst, hpieces, innerSteps,
      List.map_cons, List.filter_cons_of_pos (by simpa using hhere), innerSteps]
  rw [Path.same, decide_eq_true_iff, hjoin h, hjoin h', Path.same, decide_eq_true_iff]
  constructor
  · intro heq
    obtain ⟨hdir, hfile⟩ := List.append_inj' heq rfl
    refine ⟨hdir, ?_⟩
    have hname := PathComponent.ofPiece_injective (List.cons.inj hfile).1
    exact (String.append_left_inj _).1 hname
  · rintro ⟨hdir, hname⟩
    rw [hdir, hname]

end SchemaGen
