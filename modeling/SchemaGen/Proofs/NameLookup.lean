import SchemaGen.Proofs.Headers
import Mathlib.Data.List.TakeWhile

/-!
# Which type names mean something

A type name is looked up in the file itself and in the files that it depends on. Which definition is
found depends on an order of preference; whether one is found does not. `Offers` says when a file
has a definition for a name, and a name means something just if one of the files has.

Results:
1. `Text.splitLast?_eq_some_iff`, `Text.splitLast?_eq_none_iff`: cutting at the last separator.
2. `Scope.lookup?_isSome_iff`: a lookup succeeds just if some file offers the name.
-/

namespace SchemaGen

/-- A file of the given package that defines `names` has a definition for the type name `name`. With
a dot inside, the name gives the package in front of its last dot. Dots at its front do not
count. -/
def Offers (package : Option String) (names : List String) (name : String) : Prop :=
  (∃ qualifier short, Scope.bareName name = qualifier ++ "." ++ short ∧ '.' ∉ short.toList ∧
      package = some qualifier ∧ short ∈ names) ∨
    '.' ∉ (Scope.bareName name).toList ∧ Scope.bareName name ∈ names

/-- The map of each file leads to its definitions. -/
def Graph.IsIndexed (g : Graph) : Prop :=
  ∀ i f, g.file? i = some f → f.IsIndexed

/-! ## 1. Cutting at the last separator -/

namespace Text

variable {sep : Char} {s : String}

theorem splitLast?_append {front back : String} (h : s.toList = front.toList ++ sep :: back.toList)
    (hback : sep ∉ back.toList) : splitLast? sep s = some (front, back) := by
  have hreverse : s.toList.reverse = back.toList.reverse ++ sep :: front.toList.reverse := by
    rw [h]
    simp
  have hpass : ∀ c ∈ back.toList.reverse, (c != sep) = true := by
    intro c hc
    simpa using fun heq : c = sep => hback (heq ▸ List.mem_reverse.1 hc)
  have hdrop : s.toList.reverse.dropWhile (· != sep) = sep :: front.toList.reverse := by
    rw [hreverse, List.dropWhile_append_of_pos hpass, List.dropWhile_cons_of_neg (by simp)]
  have htake : s.toList.reverse.takeWhile (· != sep) = back.toList.reverse := by
    rw [hreverse, List.takeWhile_append_of_pos hpass, List.takeWhile_cons_of_neg (by simp),
      List.append_nil]
  simp only [splitLast?, hdrop, htake, List.reverse_reverse, String.ofList_toList]

theorem splitLast?_of_not_mem (h : sep ∉ s.toList) : splitLast? sep s = none := by
  have hdrop : s.toList.reverse.dropWhile (· != sep) = [] := by
    rw [List.dropWhile_eq_nil_iff]
    intro c hc
    simpa using fun heq : c = sep => h (heq ▸ List.mem_reverse.1 hc)
  simp only [splitLast?, hdrop]

theorem exists_split_of_mem (h : sep ∈ s.toList) :
    ∃ front back : String, s.toList = front.toList ++ sep :: back.toList ∧ sep ∉ back.toList := by
  obtain ⟨back, front, heq, hback⟩ := List.eq_append_cons_of_mem (List.mem_reverse.2 h)
  refine ⟨String.ofList front.reverse, String.ofList back.reverse, ?_, ?_⟩
  · rw [← List.reverse_reverse s.toList, heq]
    simp
  · simpa using hback

theorem splitLast?_eq_some_iff {front back : String} :
    splitLast? sep s = some (front, back) ↔
      s.toList = front.toList ++ sep :: back.toList ∧ sep ∉ back.toList := by
  refine ⟨fun h => ?_, fun ⟨heq, hback⟩ => splitLast?_append heq hback⟩
  have hmem : sep ∈ s.toList := by
    by_contra hnot
    rw [splitLast?_of_not_mem hnot] at h
    cases h
  obtain ⟨front', back', heq, hback⟩ := exists_split_of_mem hmem
  rw [splitLast?_append heq hback] at h
  cases h
  exact ⟨heq, hback⟩

theorem splitLast?_eq_none_iff : splitLast? sep s = none ↔ sep ∉ s.toList := by
  refine ⟨fun h hmem => ?_, splitLast?_of_not_mem⟩
  obtain ⟨front, back, heq, hback⟩ := exists_split_of_mem hmem
  rw [splitLast?_append heq hback] at h
  cases h

end Text

/-! ## 2. Lookups -/

namespace NameLookupLemmas

theorem offers_qualified {package : Option String} {names : List String}
    {name qualifier short : String}
    (h : Text.splitLast? '.' (Scope.bareName name) = some (qualifier, short)) :
    Offers package names name ↔ package = some qualifier ∧ short ∈ names := by
  obtain ⟨heq, hshort⟩ := Text.splitLast?_eq_some_iff.1 h
  constructor
  · rintro (⟨qualifier', short', heq', hshort', hpackage, hmem⟩ | ⟨hnone, -⟩)
    · have hsplit : Text.splitLast? '.' (Scope.bareName name) = some (qualifier', short') := by
        refine Text.splitLast?_append ?_ hshort'
        rw [heq']
        simp
      rw [h] at hsplit
      cases hsplit
      exact ⟨hpackage, hmem⟩
    · exact absurd (by simp [heq]) hnone
  · rintro ⟨hpackage, hmem⟩
    refine .inl ⟨qualifier, short, String.toList_inj.1 ?_, hshort, hpackage, hmem⟩
    rw [heq]
    simp

theorem offers_unqualified {package : Option String} {names : List String} {name : String}
    (h : Text.splitLast? '.' (Scope.bareName name) = none) :
    Offers package names name ↔ Scope.bareName name ∈ names := by
  have hnone := Text.splitLast?_eq_none_iff.1 h
  constructor
  · rintro (⟨qualifier, short, heq, -, -, -⟩ | ⟨-, hmem⟩)
    · exact absurd (by simp [heq]) hnone
    · exact hmem
  · exact fun hmem => .inr ⟨hnone, hmem⟩

theorem own?_isSome_iff (s : Scope) (name : String) :
    (s.own? name).isSome ↔ name ∈ s.own.map (·.1) := by
  rw [Scope.own?, List.lookup_isSome_iff, List.mem_map]
  refine exists_congr fun e => and_congr List.mem_reverse ?_
  rw [beq_iff_eq, eq_comm]

theorem imported?_isSome_iff {s : Scope} (hs : s.graph.IsIndexed) (p : SchemaFile → Bool)
    (name : String) :
    (s.imported? p name).isSome ↔
      ∃ id ∈ s.dependencies, ∃ f, s.graph.file? id = some f ∧ p f ∧ name ∈ f.names := by
  rw [Scope.imported?, List.findSome?_isSome_iff]
  refine exists_congr fun id => and_congr_right fun _ => ?_
  cases hf : s.graph.file? id with
  | none => simp
  | some f =>
    rw [Option.bind_some]
    by_cases hp : p f = true
    · simp [hp, (hs id f hf).isSome_iff]
    · simp [hp]

theorem map_declared (id : FileId) (d : Document) : (Scope.declared id d).map (·.1) = d.names := by
  have hzip {α : Type} (name : α → String) (items : List α) :
      items.zipIdx.map (fun item => name item.1) = items.map name := by
    calc items.zipIdx.map (fun item => name item.1)
      _ = (items.zipIdx.map Prod.fst).map name := (List.map_map ..).symm
      _ = items.map name := by rw [List.zipIdx_map_fst]
  rw [Scope.declared, List.map_append, List.map_map, List.map_map, Document.names]
  exact congrArg₂ (· ++ ·) (hzip (·.name) d.messages) (hzip (·.name) d.enums)

end NameLookupLemmas

open NameLookupLemmas

/-- A lookup finds something just if the file itself or one that it depends on offers the name. -/
theorem Scope.lookup?_isSome_iff {s : Scope} (hs : s.graph.IsIndexed) (name : String) :
    (s.lookup? name).isSome ↔
      Offers s.package (s.own.map (·.1)) name ∨
        ∃ id ∈ s.dependencies, ∃ f, s.graph.file? id = some f ∧ Offers f.package? f.names name := by
  unfold lookup?
  split
  · next qualifier short hsplit =>
    simp only [offers_qualified hsplit, Option.isSome_map, Option.isSome_or, Bool.or_eq_true,
      imported?_isSome_iff hs, decide_eq_true_iff]
    refine or_congr_left ?_
    split
    · next hpackage => simp [hpackage, own?_isSome_iff]
    · next hpackage => simp [hpackage]
  · next hsplit =>
    simp only [offers_unqualified hsplit, Option.isSome_map, Option.isSome_or, Bool.or_eq_true,
      imported?_isSome_iff hs, own?_isSome_iff, decide_eq_true_iff]
    -- A definition in a file of the same package is one in any file.
    refine or_congr_right ⟨?_, fun h => .inr ?_⟩
    · rintro (⟨id, hid, f, hf, -, hmem⟩ | ⟨id, hid, f, hf, -, hmem⟩)
      · exact ⟨id, hid, f, hf, hmem⟩
      · exact ⟨id, hid, f, hf, hmem⟩
    · obtain ⟨id, hid, f, hf, hmem⟩ := h
      exact ⟨id, hid, f, hf, trivial, hmem⟩

end SchemaGen
