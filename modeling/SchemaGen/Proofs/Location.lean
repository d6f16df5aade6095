import SchemaGen.FileSystem.Resolve

/-!
# Locations and their paths

A location is a list of names, and a name could be any text. The ones that following an absolute
path can end at are plain: their names are not empty, no dots and without slashes. A plain location
is given back by its path, so for plain locations it is the same to compare the paths and to compare
the locations.

Results:
1. `pieces_path`, `same_path_iff`: a plain location is the list of the pieces of its path.
2. `plain_of_canonicalize`: an absolute path leads to a plain location only.
-/

namespace SchemaGen

/-- A name that a path can spell as one of its components. -/
def IsPlainName (name : String) : Prop :=
  name ≠ "" ∧ name ≠ "." ∧ name ≠ ".." ∧ '/' ∉ name.toList

/-- A location that its path spells out. -/
def Location.IsPlain (l : Location) : Prop :=
  ∀ name ∈ l, IsPlainName name

namespace LocationLemmas

/-! ## Splitting text -/

theorem split_eq_splitOn (sep : Char) (cs : List Char) : Text.split sep cs = cs.splitOn sep := by
  induction cs with
  | nil => rfl
  | cons c rest ih =>
    rw [Text.split, List.splitOn_cons_eq_if_modifyHead, ih]
    by_cases hc : c = sep
    · simp [hc]
    · have hne : (c == sep) = false := by simp [hc]
      rw [if_neg hc, hne]
      cases hpieces : rest.splitOn sep with
      | nil => exact absurd hpieces (List.splitOn_ne_nil sep rest)
      | cons piece pieces => rfl

variable {sep : Char} {l : List String}

/-- Pieces of text hold no separator. -/
theorem not_mem_of_mem_split {cs piece : List Char} (h : piece ∈ Text.split sep cs) :
    sep ∉ piece := by
  induction cs generalizing piece with
  | nil =>
    obtain rfl := List.mem_singleton.1 h
    exact List.not_mem_nil
  | cons c rest ih =>
    rw [Text.split] at h
    split at h
    · rcases List.mem_cons.1 h with rfl | hrest
      · exact List.not_mem_nil
      · exact ih hrest
    · next hc =>
      split at h
      · obtain rfl := List.mem_singleton.1 h
        simpa using Ne.symm hc
      · next first others hsplit =>
        rw [hsplit] at ih
        rcases List.mem_cons.1 h with rfl | hrest
        · rw [List.mem_cons, not_or]
          exact ⟨Ne.symm hc, ih List.mem_cons_self⟩
        · exact ih (List.mem_cons_of_mem _ hrest)

theorem mem_words {s word : String} (h : word ∈ Text.words sep s) :
    word ≠ "" ∧ sep ∉ word.toList := by
  obtain ⟨piece, hpiece, rfl⟩ := List.mem_map.1 h
  obtain ⟨hmem, hne⟩ := List.mem_filter.1 hpiece
  rw [String.toList_ofList]
  refine ⟨fun hempty => ?_, not_mem_of_mem_split hmem⟩
  have hnil : piece = [] := by simpa using congrArg String.toList hempty
  simp [hnil] at hne

theorem split_path (l : Location) :
    Text.split '/' l.path.text.toList =
      [] :: Text.split '/' (['/'].intercalate (l.map (·.toList))) := by
  simp [Location.path, Text.split]

theorem filter_split_intercalate (h : ∀ name ∈ l, name ≠ "" ∧ '/' ∉ name.toList) :
    (Text.split '/' (['/'].intercalate (l.map (·.toList)))).filter (!·.isEmpty) =
      l.map (·.toList) := by
  cases l with
  | nil => rfl
  | cons first others =>
    have hslash : ∀ cs ∈ (first :: others).map (·.toList), '/' ∉ cs := by
      intro cs hcs
      obtain ⟨name, hname, rfl⟩ := List.mem_map.1 hcs
      exact (h name hname).2
    rw [split_eq_splitOn, List.splitOn_intercalate '/' hslash (by simp), List.filter_eq_self]
    intro cs hcs
    obtain ⟨name, hname, rfl⟩ := List.mem_map.1 hcs
    simpa using (h name hname).1

/-- Words that are put together with slashes can be told from the text. -/
theorem words_intercalate (h : ∀ name ∈ l, name ≠ "" ∧ '/' ∉ name.toList) :
    Text.words '/' ("/".intercalate l) = l := by
  have htext : ("/".intercalate l).toList = ['/'].intercalate (l.map (·.toList)) := by
    simp
  rw [Text.words, htext, filter_split_intercalate h, List.map_map]
  simp

end LocationLemmas

open LocationLemmas

/-! ## 1. Plain locations and their paths -/

variable {l : Location}

theorem Location.pieces_path (h : l.IsPlain) : l.path.pieces = l := by
  have hwords : ∀ name ∈ l, name ≠ "" ∧ '/' ∉ name.toList :=
    fun name hname => ⟨(h name hname).1, (h name hname).2.2.2⟩
  rw [Path.pieces, Text.words, split_path, List.filter_cons_of_neg (by simp),
    filter_split_intercalate hwords, List.map_map]
  simp

theorem Location.isAbsolute_path (l : Location) : l.path.isAbsolute = true := by
  simp [Path.isAbsolute, Location.path]

theorem Location.components_path (h : l.IsPlain) : l.path.components = .root :: l.map .name := by
  have hname : ∀ name ∈ l, PathComponent.ofPiece name = .name name := by
    intro name hname
    obtain ⟨-, hdot, hdots, -⟩ := h name hname
    rw [PathComponent.ofPiece, if_neg hdot, if_neg hdots]
  rw [Path.components, if_pos l.isAbsolute_path, pieces_path h, List.map_congr_left hname,
    List.filter_eq_self.2]
  intro c hc
  obtain ⟨name, -, rfl⟩ := List.mem_map.1 hc
  simp

/-- Plain locations with the same path are the same. -/
theorem Location.same_path_iff {m : Location} (hl : l.IsPlain) (hm : m.IsPlain) :
    l.path.same m.path = true ↔ l = m := by
  rw [Path.same, decide_eq_true_iff, components_path hl, components_path hm]
  simp [List.map_inj_right]

/-! ## 2. Where absolute paths lead -/

namespace LocationLemmas

/-- A way through plain names only. -/
def IsPlainTrail (t : Trail) : Prop :=
  ∀ e ∈ t, IsPlainName e.1

theorem plain_location {t : Trail} (h : IsPlainTrail t) : t.location.IsPlain := by
  intro name hname
  rw [Trail.location, List.mem_reverse] at hname
  obtain ⟨e, he, rfl⟩ := List.mem_map.1 hname
  exact h e he

theorem not_mem_of_mem_steps {p : Path} {step : String} (h : step ∈ p.steps) :
    '/' ∉ step.toList := by
  unfold Path.steps at h
  split at h
  · rcases List.mem_append.1 h with hpiece | hlast
    · exact (mem_words hpiece).2
    · obtain rfl := List.mem_singleton.1 hlast
      simp
  · exact (mem_words h).2

variable {fs : FileSystem} {here : Trail} {steps : List String} {l : Location} {n : Node}

/-- Following steps ends at a plain location if jumping through a link does. -/
theorem plain_of_follow {jump : Trail → List String → Except FileError Place}
    (hjump : ∀ here steps l n, IsPlainTrail here → (∀ step ∈ steps, '/' ∉ step.toList) →
      jump here steps = .ok (.found l n) → l.IsPlain) (hhere : IsPlainTrail here)
    (hsteps : ∀ step ∈ steps, '/' ∉ step.toList)
    (h : fs.follow .resolve jump here steps = .ok (.found l n)) : l.IsPlain := by
  induction steps generalizing here with
  | nil =>
    cases h
    exact plain_location hhere
  | cons step rest ih =>
    have hrest : ∀ step ∈ rest, '/' ∉ step.toList :=
      fun s hs => hsteps s (List.mem_cons_of_mem _ hs)
    unfold FileSystem.follow at h
    split at h
    · next entries _ =>
      split at h
      · exact ih hhere hrest h
      next hnone =>
      split at h
      · exact ih (fun e he => hhere e (List.mem_of_mem_tail he)) hrest h
      next hdots =>
      split at h
      · cases h
      split at h
      · cases h
      split at h
      · split at h <;> cases h
      · next target _ =>
        -- A link in last place is followed as well, since the path is resolved.
        rw [if_neg (by simp)] at h
        refine hjump _ _ l n ?_ ?_ h
        · split
          · exact fun e he => absurd he List.not_mem_nil
          · exact hhere
        · intro s hs
          rcases List.mem_append.1 hs with htarget | hs
          · exact not_mem_of_mem_steps htarget
          · exact hrest s hs
      · refine ih ?_ hrest h
        intro e he
        rcases List.mem_cons.1 he with rfl | he
        · rw [not_or] at hnone
          exact ⟨hnone.1, hnone.2, hdots, hsteps step List.mem_cons_self⟩
        · exact hhere e he
    · cases h

theorem plain_of_walk {links : Nat} (hhere : IsPlainTrail here)
    (hsteps : ∀ step ∈ steps, '/' ∉ step.toList)
    (h : fs.walk .resolve links here steps = .ok (.found l n)) : l.IsPlain := by
  induction links generalizing here steps l n with
  | zero => exact plain_of_follow (fun _ _ _ _ _ _ hjump => by cases hjump) hhere hsteps h
  | succ links ih => exact plain_of_follow (fun _ _ _ _ => ih) hhere hsteps h

end LocationLemmas

/-- What an absolute path leads to has a plain location, whatever names the directories hold. -/
theorem FileSystem.plain_of_canonicalize {fs : FileSystem} {p : Path} (habs : p.isAbsolute = true)
    (h : fs.canonicalize p = .ok l) : l.IsPlain := by
  unfold canonicalize at h
  split at h
  · next l' n hlocate =>
    obtain rfl := Except.ok.inj h
    unfold locate at hlocate
    split at hlocate
    · cases hlocate
    split at hlocate
    · cases hlocate
    rw [if_neg (fun hlong => hlong.1 rfl)] at hlocate
    exact plain_of_walk (fun e he => absurd he List.not_mem_nil) (fun _ => not_mem_of_mem_steps)
      hlocate
  · cases h
  · cases h

end SchemaGen
