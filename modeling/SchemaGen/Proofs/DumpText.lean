import SchemaGen.Proofs.JsonText
import SchemaGen.Schema.Dump
import Mathlib.Data.List.Basic

/-!
# What the JSON form of a schema file tells

The JSON form of a file loses nothing that the file declares: its paths, its headers, its
definitions with all their members, and its map from names to addresses. This holds of any values,
also where the map and the definitions do not agree. What the form does not tell is the number of
the file, the files that it depends on, and the owners of its definitions.

Results:
1. `Dump.field_injective`, `Dump.constant_injective`, `Dump.definition_injective`: the parts of a
   file are told by their JSON values.
2. `dump_eq_iff`: two files have one text if and only if they agree in all that is shown.
-/

namespace SchemaGen

/-- What is shown of a message: all but its owner. -/
def Message.shown (m : Message) : Described × List Field :=
  (m.toDescribed, m.fields)

/-- What is shown of an enumeration: all but its owner. -/
def Enumeration.shown (e : Enumeration) : Described × List Constant :=
  (e.toDescribed, e.constants)

/-! ## 1. Parts of files -/

namespace Dump

theorem ofText?_injective : Function.Injective Json.ofText? := by
  intro a b h
  cases a <;> cases b <;> cases h <;> rfl

theorem definitionKind_injective : Function.Injective definitionKind := by
  intro a b h
  cases a <;> cases b <;> first | rfl | exact absurd (Json.string.inj h) (by decide)

theorem definitionId_injective : Function.Injective definitionId := by
  rintro ⟨file, kind, index⟩ ⟨file', kind', index'⟩ h
  simp only [definitionId, Json.object.injEq, List.cons.injEq, Prod.mk.injEq, Json.int.injEq,
    Int.natCast_inj, true_and, and_true] at h
  obtain ⟨rfl, hkind, rfl⟩ := h
  rw [definitionKind_injective hkind]

theorem keyword_injective : Function.Injective HeaderKind.keyword := by
  intro a b h
  cases a <;> cases b <;> first | rfl | exact absurd h (by decide)

theorem header_injective : Function.Injective header := by
  rintro ⟨kind, name, value⟩ ⟨kind', name', value'⟩ h
  simp only [header, Json.object.injEq, List.cons.injEq, Prod.mk.injEq, Json.string.injEq,
    true_and, and_true] at h
  obtain ⟨hkind, rfl, rfl⟩ := h
  rw [keyword_injective hkind]

theorem baseName_injective : Function.Injective BaseType.name := by
  intro a b h
  cases a <;> cases b <;> first | rfl | exact absurd h (by decide)

theorem fieldType_injective : Function.Injective fieldType := by
  intro a
  induction a with
  | base b =>
    intro type h
    cases type with
    | base b' =>
      simp only [fieldType, Json.object.injEq, List.cons.injEq, Prod.mk.injEq, Json.string.injEq,
        true_and, and_true] at h
      rw [baseName_injective h]
    | reference => simp [fieldType] at h
    | map => simp [fieldType] at h
  | reference package name target =>
    intro type h
    cases type with
    | base => simp [fieldType] at h
    | reference package' name' target' =>
      simp only [fieldType, Json.object.injEq, List.cons.injEq, Prod.mk.injEq, Json.string.injEq,
        true_and, and_true] at h
      obtain ⟨hpackage, rfl, htarget⟩ := h
      rw [ofText?_injective hpackage, definitionId_injective htarget]
    | map => simp [fieldType] at h
  | map key value ihkey ihvalue =>
    intro type h
    cases type with
    | base => simp [fieldType] at h
    | reference => simp [fieldType] at h
    | map key' value' =>
      simp only [fieldType, Json.object.injEq, List.cons.injEq, Prod.mk.injEq, true_and,
        and_true] at h
      rw [ihkey h.1, ihvalue h.2]

theorem cardinalityName_injective : Function.Injective Cardinality.name := by
  intro a b h
  cases a <;> cases b <;> first | rfl | exact absurd h (by decide)

/-- The keys of fields and constants say which values they share. -/
theorem eq_of_member {d d' : Described} {number number' : Int} {index index' : Nat}
    {more more' : List (String × Json)}
    (h : member d number index ++ more = member d' number' index' ++ more') :
    d = d' ∧ number = number' ∧ index = index' ∧ more = more' := by
  obtain ⟨name, comment, ignored⟩ := d
  obtain ⟨name', comment', ignored'⟩ := d'
  simp only [member, List.cons_append, List.nil_append, List.cons.injEq, Prod.mk.injEq,
    Json.string.injEq, Json.int.injEq, Json.bool.injEq, Int.natCast_inj, true_and] at h
  obtain ⟨rfl, rfl, rfl, hcomment, rfl, hmore⟩ := h
  exact ⟨by rw [ofText?_injective hcomment], rfl, rfl, hmore⟩

theorem field_injective : Function.Injective field := by
  rintro ⟨d, number, index, type, cardinality⟩ ⟨d', number', index', type', cardinality'⟩ h
  obtain ⟨rfl, rfl, rfl, hmore⟩ := eq_of_member (Json.object.inj h)
  simp only [List.cons.injEq, Prod.mk.injEq, Json.string.injEq, true_and, and_true] at hmore
  rw [fieldType_injective hmore.1, cardinalityName_injective hmore.2]

theorem constant_injective : Function.Injective constant := by
  rintro ⟨d, number, index⟩ ⟨d', number', index'⟩ h
  have hmember : member d number index ++ [] = member d' number' index' ++ [] := by
    rw [List.append_nil, List.append_nil]
    exact Json.object.inj h
  obtain ⟨rfl, rfl, rfl, -⟩ := eq_of_member hmember
  rfl

theorem definition_injective {α : Type} {member : α → Json} (hmember : Function.Injective member) :
    Function.Injective fun p : Described × List α => definition p.1 (p.2.map member) := by
  rintro ⟨⟨name, comment, ignored⟩, members⟩ ⟨⟨name', comment', ignored'⟩, members'⟩ h
  simp only [definition, Json.object.injEq, List.cons.injEq, Prod.mk.injEq, Json.string.injEq,
    Json.array.injEq, Json.bool.injEq, true_and, and_true] at h
  obtain ⟨rfl, hmembers, hcomment, rfl⟩ := h
  rw [ofText?_injective hcomment, List.map_injective_iff.2 hmember hmembers]

end Dump

/-! ## 2. Files -/

namespace DumpTextLemmas

variable {f g : SchemaFile}

theorem map_eq_iff_of_shown {α β : Type} (shown : α → β) {json : β → Json}
    (hjson : Function.Injective json) (items items' : List α) :
    items.map (fun a => json (shown a)) = items'.map (fun a => json (shown a)) ↔
      items.map shown = items'.map shown := by
  have hcomp : (fun a => json (shown a)) = json ∘ shown := rfl
  rw [hcomp, ← List.map_map, ← List.map_map]
  exact (List.map_injective_iff.2 hjson).eq_iff

/-- The entries of a map are told in full, so the map is. -/
theorem definitions_eq_iff :
    (f.definitions.entries.map fun e => (e.1, Dump.definitionId e.2)) =
        (g.definitions.entries.map fun e => (e.1, Dump.definitionId e.2)) ↔
      f.definitions = g.definitions := by
  have hentry :
      Function.Injective fun e : String × DefinitionId => (e.1, Dump.definitionId e.2) := by
    intro e e' h
    obtain ⟨hname, hid⟩ := Prod.mk.inj h
    exact Prod.ext hname (Dump.definitionId_injective hid)
  rw [(List.map_injective_iff.2 hentry).eq_iff, NameMap.ext_iff]

end DumpTextLemmas

open DumpTextLemmas

/-- Two files have the same JSON text if and only if they agree in all that is shown. So the text
tells everything but the number of the file, the files that it depends on and the owners of its
definitions, and these do not change it. -/
theorem dump_eq_iff (f g : SchemaFile) :
    f.dump = g.dump ↔
      (f.rootDir = g.rootDir ∧ f.file = g.file ∧ f.path = g.path) ∧
      (f.headers = g.headers ∧ f.imports = g.imports ∧ f.options = g.options) ∧
      f.messages.map Message.shown = g.messages.map Message.shown ∧
      f.enums.map Enumeration.shown = g.enums.map Enumeration.shown ∧
      f.definitions = g.definitions := by
  have hheader := List.map_injective_iff.2 Dump.header_injective
  have hmessages := map_eq_iff_of_shown Message.shown
    (Dump.definition_injective Dump.field_injective) f.messages g.messages
  have henums := map_eq_iff_of_shown Enumeration.shown
    (Dump.definition_injective Dump.constant_injective) f.enums g.enums
  constructor
  · intro h
    have hjson := Json.render_injective h
    simp only [Dump.schemaFile, Json.object.injEq, List.cons.injEq, Prod.mk.injEq,
      Json.string.injEq, Json.array.injEq, true_and, and_true] at hjson
    obtain ⟨hroot, hfile, hpath, hheaders, himports, hoptions, hms, hes, hdefinitions⟩ := hjson
    exact ⟨⟨congrArg Path.mk hroot, congrArg Path.mk hfile, congrArg Path.mk hpath⟩,
      ⟨hheader hheaders, hheader himports, hheader hoptions⟩, hmessages.1 hms,
      henums.1 hes, definitions_eq_iff.1 hdefinitions⟩
  · rintro ⟨⟨hroot, hfile, hpath⟩, ⟨hheaders, himports, hoptions⟩, hms, hes, hdefinitions⟩
    have hms' := hmessages.2 hms
    have hes' := henums.2 hes
    dsimp only [Message.shown, Enumeration.shown] at hms' hes'
    rw [SchemaFile.dump, SchemaFile.dump, Dump.schemaFile, Dump.schemaFile, hroot, hfile, hpath,
      hheaders, himports, hoptions, hms', hes', hdefinitions]

end SchemaGen
