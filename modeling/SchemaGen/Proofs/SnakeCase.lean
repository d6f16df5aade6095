import SchemaGen.Proofs.Identifiers

/-!
# Snake case only lowers and separates

What snake case does to an ASCII name, as a whole. Whether a character gets a separator is decided
by its two neighbours, so the proofs carry the character before the rest of the name along: a
separator never stands behind an underscore, and never before one, since only capitals get one.

Results:
1. `Text.snakeCase_laws`: what is kept and what is added, and that a second time changes nothing.
2. `Text.snakeCase_laws_acronym`: a name with acronyms and underscores.
-/

namespace SchemaGen.Text

variable {cs : List Char}

theorem lowered_of_mem_snakeAfter (before : Option Char) (h : IsAscii cs) :
    ∀ x ∈ snakeAfter before cs, isCapital x = false ∧ x.toLower = x := by
  induction cs generalizing before with
  | nil => nofun
  | cons c cs ih =>
    have hc : isCapital c.toLower = false ∧ c.toLower.toLower = c.toLower :=
      Token.of_ascii (P := fun c => isCapital c.toLower = false ∧ c.toLower.toLower = c.toLower)
        (by decide) h.head
    rw [snakeAfter_cons h.head, List.forall_mem_append, List.forall_mem_cons]
    refine ⟨?_, hc, ih (some c) h.tail⟩
    split
    · simpa using show isCapital '_' = false ∧ '_'.toLower = '_' by decide
    · nofun

theorem snakeAfter_eq_self (before : Option Char) (h : ∀ c ∈ cs, isCapital c = false) :
    snakeAfter before cs = cs := by
  induction cs generalizing before with
  | nil => rfl
  | cons c cs ih =>
    rw [List.forall_mem_cons] at h
    rw [snakeAfter, h.1, ih (some c) h.2]
    rfl

/-- Only underscores are added. -/
theorem filter_snakeAfter (before : Option Char) (h : IsAscii cs) :
    (snakeAfter before cs).filter (· ≠ '_') = letters cs := by
  have hlower : ∀ x ∈ (snakeAfter before cs).filter (· ≠ '_'), x.toLower = x := fun x hx =>
    (lowered_of_mem_snakeAfter before h x (List.mem_filter.1 hx).1).2
  rw [← letters_snakeAfter before h, letters, List.map_congr_left hlower, List.map_id']

/-- Nothing is dropped and the order is kept. -/
theorem sublist_snakeAfter (before : Option Char) (h : IsAscii cs) :
    (cs.map Char.toLower).Sublist (snakeAfter before cs) := by
  induction cs generalizing before with
  | nil => exact .slnil
  | cons c cs ih =>
    rw [snakeAfter_cons h.head, List.map_cons]
    exact ((ih (some c) h.tail).cons_cons _).trans (List.sublist_append_right _ _)

/-- The underscores next to each other behind a character `b` were next to each other. -/
theorem infix_of_snakeAfter {b : Char} (h : IsAscii (b :: cs))
    (hdouble : ['_', '_'] <:+: b.toLower :: snakeAfter (some b) cs) :
    ['_', '_'] <:+: b :: cs := by
  induction cs generalizing b with
  | nil => simp [snakeAfter, List.infix_cons_iff] at hdouble
  | cons c cs ih =>
    have hb := (caseLaws_of_ascii h.head).toLower_eq_underscore
    have hc := (caseLaws_of_ascii h.tail.head).toLower_eq_underscore
    rw [snakeAfter_cons h.tail.head] at hdouble
    rw [List.infix_cons_iff]
    split at hdouble
    next hsep =>
      -- a separator stands between two characters that are no underscores
      have hb' : b ≠ '_' := by
        rintro rfl
        exact absurd hsep.2 (by simp [startsWord, isCapital_eq])
      have hc' : c ≠ '_' := by
        rintro rfl
        exact absurd hsep.1 (by decide)
      simp only [List.cons_append, List.nil_append, List.infix_cons_iff (a := '_'),
        List.infix_cons_iff (a := b.toLower), List.cons_prefix_cons] at hdouble
      exact .inr (ih h.tail (by grind))
    · simp only [List.nil_append, List.infix_cons_iff (a := b.toLower), List.cons_prefix_cons]
        at hdouble
      rcases hdouble with ⟨hfirst, hsecond, -⟩ | hrest
      · exact .inl (by simp [hb.1 hfirst.symm, hc.1 hsecond.symm])
      · exact .inr (ih h.tail hrest)

/-- In snake case an ASCII name has no capitals. Without underscores it is the name without
underscores in small letters; all characters of the name are still there, in their order, and no
underscore comes first or behind another that did not before. Snake case changes nothing a second
time, and names with the same form differ in case and underscores only. -/
theorem snakeCase_laws (s : String) (h : IsAscii s.toList) :
    (∀ c ∈ (snakeCase s).toList, isCapital c = false) ∧
      (snakeCase s).toList.filter (· ≠ '_') = letters s.toList ∧
      ((snakeCase s).toList.head? = some '_' → s.toList.head? = some '_') ∧
      (['_', '_'] <:+: (snakeCase s).toList → ['_', '_'] <:+: s.toList) ∧
      (s.toList.map Char.toLower).Sublist (snakeCase s).toList ∧
      snakeCase (snakeCase s) = snakeCase s ∧
      ∀ s' : String, IsAscii s'.toList → snakeCase s = snakeCase s' →
        letters s.toList = letters s'.toList := by
  have hcapital := fun c hc => (lowered_of_mem_snakeAfter none h c hc).1
  have hletters {s : String} (h : IsAscii s.toList) :
      (snakeCase s).toList.filter (· ≠ '_') = letters s.toList := by
    rw [snakeCase, String.toList_ofList, filter_snakeAfter none h]
  refine ⟨?_, hletters h, ?_, ?_, ?_, ?_, fun s' h' heq => by rw [← hletters h, ← hletters h', heq]⟩
  all_goals simp only [snakeCase, String.toList_ofList]
  · exact hcapital
  · cases hs : s.toList with
    | nil => exact id
    | cons c cs =>
      rw [hs] at h
      rw [snakeAfter_none_cons h.head]
      simp [(caseLaws_of_ascii h.head).toLower_eq_underscore]
  · cases hs : s.toList with
    | nil => exact id
    | cons c cs =>
      rw [hs] at h
      rw [snakeAfter_none_cons h.head]
      exact infix_of_snakeAfter h
  · exact sublist_snakeAfter none h
  · rw [snakeAfter_eq_self none hcapital]

theorem snakeCase_laws_acronym :
    IsAscii "sessionID".toList ∧ IsAscii "session_id".toList ∧
      snakeCase "sessionID" = "session_id" ∧ snakeCase "session_id" = "session_id" ∧
      letters "sessionID".toList = letters "session_id".toList := by
  have h : IsAscii "sessionID".toList := Token.forall_mem_of_all (by decide)
  have h' : IsAscii "session_id".toList := Token.forall_mem_of_all (by decide)
  have hform : snakeCase "sessionID" = "session_id" := by decide
  obtain ⟨-, -, -, -, -, hagain, hsame⟩ := snakeCase_laws "sessionID" h
  rw [hform] at hagain hsame
  exact ⟨h, h', hform, hagain, hsame _ h' hagain.symm⟩

end SchemaGen.Text
