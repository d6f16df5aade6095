import SchemaGen.Proofs.References
import SchemaGen.Target.JavaVocabulary
import SchemaGen.Target.RustVocabulary

/-!
# Which types fields get

The type of a field is put together in the same way in every target language; a language only brings
its words. A type that holds one value and a type inside a list or a map are told apart: a map can
be the first and not the second, and only the second is boxed. This module says what comes of it for
every field whose references lead somewhere, however deep its type is nested.

Results:
1. `Vocabulary.fieldType_eq_error_iff`: a field has no type just if a list or map in it holds maps.
2. `Vocabulary.fieldType_withNumbers`: enumerations are read as numbers, at every place in a type.
3. `Vocabulary.default_eq_null_iff`: the fields that start out absent.
4. `Java.boxed_not_primitive`: what lists and maps hold in Java.
5. `fieldType_law`: all this for both languages.
-/

namespace SchemaGen

open FillingLemmas

/-! ## Definitions -/

/-- There is a definition at the address. If it is a message, the file that owns it is there too. -/
def Graph.Contains (g : Graph) (id : DefinitionId) : Prop :=
  ∃ d, g.definition? id = some d ∧ ∀ m, d = .message m → ∃ f, g.file? m.owner = some f

namespace FieldType

/-- The type is a map. -/
def IsMap (t : FieldType) : Prop :=
  ∃ key value, t = .map key value

/-- The type refers to a message. -/
def IsMessage (g : Graph) (t : FieldType) : Prop :=
  ∃ package name id m, t = .reference package name id ∧ g.definition? id = some (.message m)

/-- The type with the type of numbers in the place of every enumeration. -/
def withNumbers (g : Graph) : FieldType → FieldType
  | base b => base b
  | reference package name id =>
    match g.definition? id with
    | some (.enumeration _) => base .int32
    | _ => reference package name id
  | map key value => map (key.withNumbers g) (value.withNumbers g)

end FieldType

namespace Field

/-- The field is a list of maps, or a map with maps for keys or values. -/
def NestsMap (x : Field) : Prop :=
  x.cardinality = .repeated ∧ x.type.IsMap ∨
    ∃ key value, x.type = .map key value ∧ (key.IsMap ∨ value.IsMap)

/-- The field starts out without a value: it is a list, a map or a message. -/
def StartsAbsent (g : Graph) (x : Field) : Prop :=
  x.cardinality = .repeated ∨ x.type.IsMap ∨ x.type.IsMessage g

end Field

namespace Java

/-- The primitive types of Java. -/
def primitives : List String :=
  ["long", "int", "boolean", "float", "double"]

/-- If the type of the field is a list or a map, it is put together from the types of its elements,
and none of these is a primitive type. -/
structure HoldsBoxed (g : Graph) (x : Field) (r : Rendered) : Prop where
  list : x.cardinality = .repeated → ∃ item, vocabulary.element g x.name x.type = .ok item ∧
    r.type = s!"java.util.List<{item}>" ∧ item ∉ primitives
  map : x.cardinality = .singular → ∀ key value, x.type = .map key value → ∃ k w,
    vocabulary.element g x.name key = .ok k ∧ vocabulary.element g x.name value = .ok w ∧
      r.type = s!"java.util.Map<{k}, {w}>" ∧ k ∉ primitives ∧ w ∉ primitives

end Java

/-! ## 1. Fields without a type -/

namespace Vocabulary

variable {v : Vocabulary} {g : Graph} {field : String}

section References

variable {package : Option String} {name : String} {id : DefinitionId}

theorem element_of_enumeration {e : Enumeration} (h : g.definition? id = some (.enumeration e)) :
    v.element g field (.reference package name id) = v.element g field (.base .int32) := by
  simp only [element, target, h]
  rfl

theorem single_of_enumeration {e : Enumeration} (h : g.definition? id = some (.enumeration e)) :
    v.single g field (.reference package name id) = v.single g field (.base .int32) := by
  simp only [single, target, h]
  rfl

variable {m : Message} {f : SchemaFile} (h : g.definition? id = some (.message m))
  (hf : g.file? m.owner = some f)

include h hf

theorem element_of_message :
    v.element g field (.reference package name id) = .ok (v.boxed (v.messageName f m)) := by
  simp only [element, target, h, hf]
  rfl

theorem single_of_message :
    v.single g field (.reference package name id) =
      .ok ⟨v.reference (v.messageName f m), v.null⟩ := by
  simp only [single, target, h, hf]
  rfl

end References

section Contained

variable {t : FieldType} (h : ∀ r ∈ t.references, g.Contains r.2)

include h

/-- Only a map cannot be inside a list or a map. -/
theorem element_eq_error_iff {e : TypeError} :
    v.element g field t = .error e ↔ e = .nestedMap field ∧ t.IsMap := by
  cases t with
  | base b => exact ⟨nofun, fun ⟨_, _, _, hmap⟩ => nomatch hmap⟩
  | map key value =>
    refine ⟨fun herror => ?_, fun ⟨he, _⟩ => he ▸ rfl⟩
    cases herror
    exact ⟨rfl, key, value, rfl⟩
  | reference package name id =>
    refine ⟨fun herror => ?_, fun ⟨_, _, _, hmap⟩ => nomatch hmap⟩
    obtain ⟨d, hd, howner⟩ := h (name, id) List.mem_cons_self
    cases d with
    | enumeration e =>
      rw [element_of_enumeration hd] at herror
      cases herror
    | message m =>
      obtain ⟨f, hf⟩ := howner m rfl
      rw [element_of_message hd hf] at herror
      cases herror

/-- A field with one value has no type just if it is a map of maps. -/
theorem single_eq_error_iff {e : TypeError} :
    v.single g field t = .error e ↔
      e = .nestedMap field ∧ ∃ key value, t = .map key value ∧ (key.IsMap ∨ value.IsMap) := by
  cases t with
  | base b => simp [single]
  | reference package name id =>
    obtain ⟨d, hd, howner⟩ := h (name, id) List.mem_cons_self
    cases d with
    | enumeration e =>
      rw [single_of_enumeration hd]
      simp [single]
    | message m =>
      obtain ⟨f, hf⟩ := howner m rfl
      simp [single_of_message hd hf]
  | map key value =>
    have hkey (e : TypeError) : v.element g field key = .error e ↔ _ :=
      element_eq_error_iff fun r hr => h r (List.mem_append_left _ hr)
    have hvalue (e : TypeError) : v.element g field value = .error e ↔ _ :=
      element_eq_error_iff fun r hr => h r (List.mem_append_right _ hr)
    have hmaps : (∃ k w, FieldType.map key value = .map k w ∧ (k.IsMap ∨ w.IsMap)) ↔
        key.IsMap ∨ value.IsMap := by
      refine ⟨?_, fun hmap => ⟨key, value, rfl, hmap⟩⟩
      rintro ⟨k, w, heq, hmap⟩
      cases heq
      exact hmap
    rw [hmaps, single]
    -- The key is looked at first, and where it fails the value does not matter.
    cases hk : v.element g field key with
    | error e' =>
      obtain ⟨rfl, hmap⟩ := (hkey e').1 hk
      refine ⟨fun herror => ?_, fun h => h.1 ▸ rfl⟩
      cases herror
      exact ⟨rfl, .inl hmap⟩
    | ok k =>
      have hnot : ¬ key.IsMap := fun hmap => by simp [(hkey _).2 ⟨rfl, hmap⟩] at hk
      cases hw : v.element g field value with
      | error e' =>
        obtain ⟨rfl, hmap⟩ := (hvalue e').1 hw
        refine ⟨fun herror => ?_, fun h => h.1 ▸ rfl⟩
        cases herror
        exact ⟨rfl, .inr hmap⟩
      | ok w =>
        have hnot' : ¬ value.IsMap := fun hmap => by simp [(hvalue _).2 ⟨rfl, hmap⟩] at hw
        exact iff_of_false (fun herror => by cases herror) fun h => h.2.elim hnot hnot'

end Contained

/-- A field has no type just if a list or a map in it holds maps, and then the error names the
field. -/
theorem fieldType_eq_error_iff {x : Field} (h : ∀ r ∈ x.type.references, g.Contains r.2)
    {e : TypeError} :
    v.fieldType g x = .error e ↔ e = .nestedMap x.name ∧ x.NestsMap := by
  unfold fieldType Field.NestsMap
  cases x.cardinality with
  | singular => simpa using single_eq_error_iff h
  | repeated =>
    have hnests : x.type.IsMap ↔ Cardinality.repeated = .repeated ∧ x.type.IsMap ∨
        ∃ key value, x.type = .map key value ∧ (key.IsMap ∨ value.IsMap) :=
      ⟨fun hmap => .inl ⟨rfl, hmap⟩, fun hor => hor.elim And.right fun ⟨key, value, heq, _⟩ =>
        ⟨key, value, heq⟩⟩
    rw [← hnests, ← element_eq_error_iff h]
    cases hitem : v.element g x.name x.type with
    | error e' =>
      constructor <;>
      · intro herror
        cases herror
        rfl
    | ok item => exact ⟨nofun, nofun⟩

/-! ## 2. Enumerations -/

theorem element_withNumbers (t : FieldType) :
    v.element g field (t.withNumbers g) = v.element g field t := by
  cases t with
  | base b => rfl
  | map key value => rfl
  | reference package name id =>
    unfold FieldType.withNumbers
    split
    · next e he => exact (element_of_enumeration he).symm
    · rfl

theorem single_withNumbers (t : FieldType) :
    v.single g field (t.withNumbers g) = v.single g field t := by
  cases t with
  | base b => rfl
  | map key value =>
    rw [FieldType.withNumbers, single, element_withNumbers, element_withNumbers]
    rfl
  | reference package name id =>
    unfold FieldType.withNumbers
    split
    · next e he => exact (single_of_enumeration he).symm
    · rfl

/-- A field is read as if numbers stood for its enumerations. -/
theorem fieldType_withNumbers (x : Field) :
    v.fieldType g { x with type := x.type.withNumbers g } = v.fieldType g x := by
  unfold fieldType
  simp only [single_withNumbers, element_withNumbers]

/-! ## 3. Absent values -/

section Absent

variable (hnull : ∀ b, (v.base b).default ≠ v.null)

include hnull

theorem single_default_eq_null_iff {t : FieldType} {r : Rendered}
    (hr : v.single g field t = .ok r) : r.default = v.null ↔ t.IsMap ∨ t.IsMessage g := by
  cases t with
  | base b =>
    cases hr
    refine iff_of_false (hnull b) ?_
    rintro (⟨_, _, heq⟩ | ⟨_, _, _, _, heq, _⟩) <;> cases heq
  | map key value =>
    obtain ⟨k, -, hrest⟩ := bind_eq_ok.1 hr
    obtain ⟨w, -, hmap⟩ := bind_eq_ok.1 hrest
    cases hmap
    exact iff_of_true rfl (.inl ⟨key, value, rfl⟩)
  | reference package name id =>
    obtain ⟨name?, htarget, hrest⟩ := bind_eq_ok.1 hr
    unfold target at htarget
    split at htarget
    · cases htarget
    · next e he =>
      cases htarget
      cases hrest
      refine iff_of_false (hnull .int32) ?_
      rintro (⟨_, _, heq⟩ | ⟨_, _, _, m, heq, hm⟩)
      · cases heq
      · cases heq
        cases he.symm.trans hm
    · next m hm =>
      split at htarget
      · cases htarget
      · cases htarget
        cases hrest
        exact iff_of_true rfl (.inr ⟨package, name, id, m, rfl, hm⟩)

/-- The literal for the absent value is the one that lists, maps and messages start with. -/
theorem default_eq_null_iff {x : Field} {r : Rendered} (hr : v.fieldType g x = .ok r) :
    r.default = v.null ↔ x.StartsAbsent g := by
  unfold fieldType at hr
  unfold Field.StartsAbsent
  cases hcardinality : x.cardinality with
  | singular =>
    rw [hcardinality] at hr
    simpa using single_default_eq_null_iff hnull hr
  | repeated =>
    rw [hcardinality] at hr
    obtain ⟨item, -, hlist⟩ := bind_eq_ok.1 hr
    cases hlist
    exact iff_of_true rfl (.inl rfl)

end Absent

end Vocabulary

/-! ## 4. Elements in Java -/

namespace Java

/-- A boxed type is no primitive type, whatever was boxed. -/
theorem boxed_not_primitive (type : String) : boxed type ∉ primitives := by
  unfold boxed
  split
  · decide
  split
  · decide
  split
  · decide
  split
  · decide
  split
  · decide
  simp_all [primitives]

theorem element_not_primitive {g : Graph} {field item : String} {t : FieldType}
    (h : vocabulary.element g field t = .ok item) : item ∉ primitives := by
  cases t with
  | base b =>
    cases h
    exact boxed_not_primitive (base b).type
  | map key value => cases h
  | reference package name id =>
    obtain ⟨name?, -, hitem⟩ := bind_eq_ok.1 h
    cases name? with
    | none =>
      cases hitem
      exact boxed_not_primitive (base .int32).type
    | some name =>
      cases hitem
      exact boxed_not_primitive name

theorem holdsBoxed_of_fieldType {g : Graph} {x : Field} {r : Rendered}
    (h : vocabulary.fieldType g x = .ok r) : HoldsBoxed g x r := by
  unfold Vocabulary.fieldType at h
  constructor
  · intro hrepeated
    rw [hrepeated] at h
    obtain ⟨item, hitem, hlist⟩ := bind_eq_ok.1 h
    cases hlist
    exact ⟨item, hitem, rfl, element_not_primitive hitem⟩
  · intro hsingular key value htype
    rw [hsingular, htype] at h
    obtain ⟨k, hk, hrest⟩ := bind_eq_ok.1 h
    obtain ⟨w, hw, hmap⟩ := bind_eq_ok.1 hrest
    cases hmap
    exact ⟨k, w, hk, hw, rfl, element_not_primitive hk, element_not_primitive hw⟩

theorem base_default_ne_null (b : BaseType) : (vocabulary.base b).default ≠ vocabulary.null := by
  cases b <;> decide

end Java

theorem Rust.base_default_ne_null (b : BaseType) :
    (vocabulary.base b).default ≠ vocabulary.null := by
  cases b <;> decide

/-! ## 5. Both languages -/

/-- The law of field types, for every field whose references lead somewhere. -/
theorem fieldType_law (g : Graph) (x : Field) (h : ∀ r ∈ x.type.references, g.Contains r.2) :
    (∀ v ∈ [Java.vocabulary, Rust.vocabulary],
      (∀ e, v.fieldType g x = .error e ↔ e = .nestedMap x.name ∧ x.NestsMap) ∧
      v.fieldType g { x with type := x.type.withNumbers g } = v.fieldType g x ∧
      ∀ r, v.fieldType g x = .ok r → (r.default = v.null ↔ x.StartsAbsent g)) ∧
    ∀ r, Java.vocabulary.fieldType g x = .ok r → Java.HoldsBoxed g x r := by
  refine ⟨fun v hv => ?_, fun r hr => Java.holdsBoxed_of_fieldType hr⟩
  have hnull : ∀ b, (v.base b).default ≠ v.null := by
    rcases List.mem_pair.1 hv with rfl | rfl
    · exact Java.base_default_ne_null
    · exact Rust.base_default_ne_null
  exact ⟨fun e => v.fieldType_eq_error_iff h, v.fieldType_withNumbers x,
    fun r hr => v.default_eq_null_iff hnull hr⟩

/-- A map from an enumeration to a message. -/
def messagesByEnumeration : Field :=
  ⟨⟨"t", none, false⟩, 1, 0, .map (.reference none "N" ⟨0, .enumeration, 0⟩)
    (.reference none "M" ⟨0, .message, 0⟩), .singular⟩

theorem fieldType_law_of_map :
    (∀ r ∈ messagesByEnumeration.type.references, namingCatalog.graph.Contains r.2) ∧
      Java.vocabulary.fieldType namingCatalog.graph messagesByEnumeration =
        .ok ⟨"java.util.Map<Integer, p.M>", "null"⟩ ∧
      ¬ messagesByEnumeration.NestsMap ∧ messagesByEnumeration.StartsAbsent namingCatalog.graph ∧
      Java.HoldsBoxed namingCatalog.graph messagesByEnumeration
        ⟨"java.util.Map<Integer, p.M>", "null"⟩ := by
  have hcontains : ∀ r ∈ messagesByEnumeration.type.references,
      namingCatalog.graph.Contains r.2 := by
    intro r hr
    rcases List.mem_pair.1 hr with rfl | rfl
    · exact ⟨_, rfl, nofun⟩
    · refine ⟨_, rfl, fun m hm => ?_⟩
      cases hm
      exact ⟨_, rfl⟩
  have htype : Java.vocabulary.fieldType namingCatalog.graph messagesByEnumeration =
      .ok ⟨"java.util.Map<Integer, p.M>", "null"⟩ := by
    decide
  obtain ⟨hboth, hjava⟩ := fieldType_law namingCatalog.graph messagesByEnumeration hcontains
  obtain ⟨herror, -, hdefault⟩ := hboth Java.vocabulary List.mem_cons_self
  refine ⟨hcontains, htype, fun hnests => ?_, (hdefault _ htype).1 rfl, hjava _ htype⟩
  cases htype.symm.trans ((herror _).2 ⟨rfl, hnests⟩)

end SchemaGen
