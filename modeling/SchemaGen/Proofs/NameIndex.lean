import SchemaGen.Proofs.Steps
import SchemaGen.Schema.File
import Mathlib.Data.List.Basic

/-!
# The map from names to definitions

A file keeps its definitions in two lists and the address of each definition under its name in a
map. Nothing in the data ties the map to the lists: registering a definition writes the map first
and one of the lists after it. This module says what one registration does and that it keeps map and
lists in step.

Results:
1. `SchemaFile.register_ok`, `SchemaFile.register_error`: what registering a definition does.
2. `SchemaFile.get?_put`, `SchemaFile.owns_put`: one more definition, at the next address.
3. `SchemaFile.IsIndexed.put`: the map of the file still leads to its definitions and to nothing
   else.
-/

namespace SchemaGen

/-! ## Definitions -/

/-- The message that a file registers for `m`. -/
def Message.registered (m : Message) (id : FileId) (package : String) : Message :=
  { m with
    owner := id
    fields := m.fields.map fun field => { field with type := field.type.withPackage package } }

/-- What a file registers for `d`. -/
def Definition.registered (id : FileId) (package : String) : Definition → Definition
  | message m => message (m.registered id package)
  | enumeration e => enumeration { e with owner := id }

namespace SchemaFile

/-- The names of the definitions of a file. -/
def names (f : SchemaFile) : List String :=
  f.messages.map (·.name) ++ f.enums.map (·.name)

/-- All definitions of a file. -/
def held (f : SchemaFile) : List Definition :=
  f.messages.map .message ++ f.enums.map .enumeration

/-- The definition of the file at the address `id` is called `name`. -/
def Owns (f : SchemaFile) (name : String) (id : DefinitionId) : Prop :=
  id.file = f.id ∧ ∃ d, f.definitionAt? id.kind id.index = some d ∧ d.name = name

/-- The map of the file leads to its definitions and to nothing else. -/
def IsIndexed (f : SchemaFile) : Prop :=
  ∀ name a, f.definitionId? name = some a ↔ f.Owns name a

/-- The address of the next definition of a kind. -/
def nextAddress (f : SchemaFile) : DefinitionKind → DefinitionId
  | .message => ⟨f.id, .message, f.messages.length⟩
  | .enumeration => ⟨f.id, .enumeration, f.enums.length⟩

/-- The file with one definition more, which is in the map too. -/
def put (f : SchemaFile) (d : Definition) : SchemaFile :=
  match d with
  | .message m =>
    { f with
      definitions := f.definitions.insert m.name (f.nextAddress .message)
      messages := f.messages ++ [m] }
  | .enumeration e =>
    { f with
      definitions := f.definitions.insert e.name (f.nextAddress .enumeration)
      enums := f.enums ++ [e] }

end SchemaFile

/-! ## 1. Single registrations -/

namespace Definition

variable {id : FileId} {package : String} {d : Definition}

@[simp] theorem name_registered : (d.registered id package).name = d.name := by
  cases d <;> rfl

@[simp] theorem kind_registered : (d.registered id package).kind = d.kind := by
  cases d <;> rfl

@[simp] theorem owner_registered : (d.registered id package).owner = id := by
  cases d <;> rfl

end Definition

namespace SchemaFile

variable {f : SchemaFile} {d x : Definition} {name package : String} {a : DefinitionId}
  {e : RegistrationError}

theorem packageFor_eq_ok_iff :
    f.packageFor name = .ok package ↔ f.definitionId? name = none ∧ f.package? = some package := by
  unfold packageFor
  split
  · next htaken => simp [Option.isSome_iff_ne_none.1 htaken]
  · next hfree =>
    rw [Option.not_isSome_iff_eq_none] at hfree
    split
    · next package' hpackage => simp [hfree, hpackage]
    · next hnone => simp [hnone]

theorem packageFor_eq_error_iff :
    f.packageFor name = .error e ↔
      (f.definitionId? name).isSome ∧ e = .duplicate f.file name ∨
        f.definitionId? name = none ∧ f.package? = none ∧ e = .missingPackage f.file name := by
  unfold packageFor
  split
  · next htaken => simp [htaken, Option.isSome_iff_ne_none.1 htaken, eq_comm]
  · next hfree =>
    rw [Option.not_isSome_iff_eq_none] at hfree
    split
    · next package hpackage => simp [hfree, hpackage]
    · next hnone => simp [hfree, hnone, eq_comm]

theorem register_ok (h : f.packageFor d.name = .ok package) :
    (register d).run f = (.ok (f.nextAddress d.kind), f.put (d.registered f.id package)) := by
  cases d with
  | message m =>
    have hname : f.packageFor m.name = .ok package := h
    simp only [register, addMessage, run_bind, run_get, run_ofExcept, hname, run_modify, run_pure]
    rfl
  | enumeration e =>
    have hname : f.packageFor e.name = .ok package := h
    simp only [register, addEnumeration, run_bind, run_get, run_ofExcept, hname, run_modify,
      run_pure]
    rfl

/-- The package is asked for before anything is written. -/
theorem register_error (h : f.packageFor d.name = .error e) :
    (register d).run f = (.error e, f) := by
  cases d with
  | message m =>
    have hname : f.packageFor m.name = .error e := h
    simp only [register, addMessage, run_bind, run_get, run_ofExcept, hname]
  | enumeration d =>
    have hname : f.packageFor d.name = .error e := h
    simp only [register, addEnumeration, run_bind, run_get, run_ofExcept, hname]

/-! ## 2. One definition more -/

theorem getElem?_concat_map_eq_some_iff {α β : Type} {g : α → β} {items : List α} {last : α}
    {i : Nat} {x : β} :
    (items ++ [last])[i]?.map g = some x ↔
      items[i]?.map g = some x ∨ i = items.length ∧ x = g last := by
  rw [List.getElem?_append]
  split
  · next hlt => simp [Nat.ne_of_lt hlt]
  · next hge =>
    rw [List.getElem?_eq_none (Nat.le_of_not_lt hge), List.getElem?_singleton]
    split
    · next hzero => simp [eq_comm, show i = items.length by omega]
    · next hpos => simp [show i ≠ items.length by omega]

theorem get?_eq_some_iff :
    f.get? a = some d ↔ a.file = f.id ∧ f.definitionAt? a.kind a.index = some d := by
  unfold get?
  split
  · next hfile => simp [hfile]
  · next hfile => simp [hfile]

theorem owns_iff : f.Owns name a ↔ ∃ d, f.get? a = some d ∧ d.name = name := by
  simp only [Owns, get?_eq_some_iff, and_assoc, exists_and_left]

@[simp] theorem id_put : (f.put d).id = f.id := by
  cases d <;> rfl

theorem get?_put :
    (f.put d).get? a = some x ↔ f.get? a = some x ∨ a = f.nextAddress d.kind ∧ x = d := by
  obtain ⟨file, kind, index⟩ := a
  rw [get?_eq_some_iff, get?_eq_some_iff]
  cases d with
  | message m =>
    cases kind with
    | message =>
      show file = f.id ∧ (f.messages ++ [m])[index]?.map _ = some x ↔ _
      rw [getElem?_concat_map_eq_some_iff, and_or_left]
      exact or_congr_right (by simp [nextAddress, Definition.kind, and_assoc])
    | enumeration => simp [put, definitionAt?, nextAddress, Definition.kind]
  | enumeration e =>
    cases kind with
    | message => simp [put, definitionAt?, nextAddress, Definition.kind]
    | enumeration =>
      show file = f.id ∧ (f.enums ++ [e])[index]?.map _ = some x ↔ _
      rw [getElem?_concat_map_eq_some_iff, and_or_left]
      exact or_congr_right (by simp [nextAddress, Definition.kind, and_assoc])

theorem owns_put :
    (f.put d).Owns name a ↔ f.Owns name a ∨ name = d.name ∧ a = f.nextAddress d.kind := by
  rw [owns_iff, owns_iff]
  constructor
  · rintro ⟨x, hx, rfl⟩
    rcases get?_put.1 hx with hold | ⟨rfl, rfl⟩
    · exact .inl ⟨x, hold, rfl⟩
    · exact .inr ⟨rfl, rfl⟩
  · rintro (⟨x, hx, rfl⟩ | ⟨rfl, rfl⟩)
    · exact ⟨x, get?_put.2 (.inl hx), rfl⟩
    · exact ⟨d, get?_put.2 (.inr ⟨rfl, rfl⟩), rfl⟩

theorem definitionId?_put :
    (f.put d).definitionId? name =
      if name = d.name then some (f.nextAddress d.kind) else f.definitionId? name := by
  cases d with
  | message m => exact NameMap.get?_insert ..
  | enumeration e => exact NameMap.get?_insert ..

theorem held_put : (f.put d).held.Perm (d :: f.held) := by
  cases d with
  | message m =>
    simp only [put, held, List.map_append, List.map_cons, List.map_nil, List.append_assoc,
      List.singleton_append]
    exact List.perm_middle
  | enumeration e =>
    simp only [put, held, List.map_append, List.map_cons, List.map_nil, ← List.append_assoc]
    exact List.perm_append_singleton _ _

theorem map_name_held (f : SchemaFile) : f.held.map (·.name) = f.names := by
  rw [held, names, List.map_append, List.map_map, List.map_map]
  rfl

theorem mem_held_iff : d ∈ f.held ↔ ∃ a, f.get? a = some d := by
  constructor
  · intro h
    rcases List.mem_append.1 h with hmem | hmem
    · obtain ⟨m, hm, rfl⟩ := List.mem_map.1 hmem
      obtain ⟨index, hindex⟩ := List.getElem?_of_mem hm
      refine ⟨⟨f.id, .message, index⟩, get?_eq_some_iff.2 ⟨rfl, ?_⟩⟩
      rw [definitionAt?, hindex, Option.map_some]
    · obtain ⟨e, he, rfl⟩ := List.mem_map.1 hmem
      obtain ⟨index, hindex⟩ := List.getElem?_of_mem he
      refine ⟨⟨f.id, .enumeration, index⟩, get?_eq_some_iff.2 ⟨rfl, ?_⟩⟩
      rw [definitionAt?, hindex, Option.map_some]
  · rintro ⟨⟨file, kind, index⟩, h⟩
    obtain ⟨-, hat⟩ := get?_eq_some_iff.1 h
    cases kind with
    | message =>
      obtain ⟨m, hm, rfl⟩ := Option.map_eq_some_iff.1 hat
      exact List.mem_append_left _ (List.mem_map_of_mem (List.mem_of_getElem? hm))
    | enumeration =>
      obtain ⟨e, he, rfl⟩ := Option.map_eq_some_iff.1 hat
      exact List.mem_append_right _ (List.mem_map_of_mem (List.mem_of_getElem? he))

theorem mem_names_iff : name ∈ f.names ↔ ∃ a, f.Owns name a := by
  simp only [← map_name_held, List.mem_map, mem_held_iff, owns_iff]
  exact ⟨fun ⟨d, ⟨a, ha⟩, hname⟩ => ⟨a, d, ha, hname⟩, fun ⟨a, d, ha, hname⟩ => ⟨d, ⟨a, ha⟩, hname⟩⟩

/-! ## 3. Map and lists -/

namespace IsIndexed

theorem isSome_iff (h : f.IsIndexed) (name : String) :
    (f.definitionId? name).isSome ↔ name ∈ f.names := by
  simp only [Option.isSome_iff_exists, mem_names_iff, h name]

theorem eq_none_iff (h : f.IsIndexed) (name : String) :
    f.definitionId? name = none ↔ name ∉ f.names := by
  rw [← h.isSome_iff, Option.not_isSome_iff_eq_none]

theorem eq_of_owns {b : DefinitionId} (h : f.IsIndexed) (ha : f.Owns name a) (hb : f.Owns name b) :
    a = b :=
  Option.some.inj (((h name a).2 ha).symm.trans ((h name b).2 hb))

/-- A definition with a free name comes into the map and into its list at the same address. -/
theorem put (h : f.IsIndexed) (hfree : f.definitionId? d.name = none) : (f.put d).IsIndexed := by
  intro name a
  rw [definitionId?_put, owns_put, ← h name a]
  split
  · next hname =>
    rw [hname, hfree]
    simp [eq_comm]
  · next hname => simp [hname]

theorem of_empty (hmessages : f.messages = []) (henums : f.enums = [])
    (hdefinitions : f.definitions = .empty) : f.IsIndexed := by
  intro name a
  obtain ⟨file, kind, index⟩ := a
  rw [definitionId?, hdefinitions, Owns]
  cases kind <;> simp [definitionAt?, hmessages, henums]

theorem addHeader (h : f.IsIndexed) (header : Header) : (f.addHeader header).IsIndexed := by
  unfold SchemaFile.addHeader
  split <;> exact h

end IsIndexed

end SchemaFile

end SchemaGen
