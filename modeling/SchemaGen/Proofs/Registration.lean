import SchemaGen.Proofs.Contents

/-!
# Registering definitions

A schema file takes in headers and definitions, in any order, and refuses some of the definitions.
What it holds afterwards is told by the calls alone. Each definition that was not refused stands
under the address that was given out for it, with the package that was in force at that time, and no
later call moves or changes it. The map leads from names to these definitions and to nothing else.

Results:
1. `FieldType.stampedAs_iff`, `Definition.storedAs_iff`: what registering makes of a definition.
2. `SchemaFile.IsRegister.mem_definitions_iff`, `SchemaFile.IsRegister.keys_perm`,
   `SchemaFile.IsRegister.definition?_eq_some_iff`: the map and the lists of a file in step.
3. `SchemaFile.take_cases`, `SchemaFile.get?_take`, `SchemaFile.IsRegister.take`: what a call does
   and what it keeps.
4. `registered_by_calls`: what any calls lead to.
-/

namespace SchemaGen

open FillingLemmas

/-! ## Definitions -/

/-- The package that a call states. Imports and options state none, whatever their name. -/
def Addition.package? : Addition → Option String
  | header h =>
    if (h.kind = .level ∨ h.kind = .package) ∧ h.name = "package" then some h.value else none
  | definition _ => none

/-- The file after some calls, whatever the answers were. -/
def SchemaFile.after (f : SchemaFile) (calls : List Addition) : SchemaFile :=
  calls.foldl (fun f call => ((take call).run f).2) f

/-- The second type is the first, with `package` in the references that name no package. -/
inductive FieldType.StampedAs (package : String) : FieldType → FieldType → Prop
  | base (b : BaseType) : StampedAs package (.base b) (.base b)
  | given (own name : String) (target : DefinitionId) :
      StampedAs package (.reference (some own) name target) (.reference (some own) name target)
  | missing (name : String) (target : DefinitionId) :
      StampedAs package (.reference none name target) (.reference (some package) name target)
  | map {key value key' value' : FieldType} (hkey : StampedAs package key key')
      (hvalue : StampedAs package value value') :
      StampedAs package (.map key value) (.map key' value')

/-- The second field is the first, but for the packages in its type. -/
def Field.StampedAs (package : String) (x y : Field) : Prop :=
  x.type.StampedAs package y.type ∧ y = { x with type := y.type }

/-- What the file `id` holds for a definition that it has registered under `package`. -/
inductive Definition.StoredAs (id : FileId) (package : String) : Definition → Definition → Prop
  | message {m : Message} {fields : List Field}
      (hfields : List.Forall₂ (Field.StampedAs package) m.fields fields) :
      StoredAs id package (.message m) (.message { m with owner := id, fields })
  | enumeration (e : Enumeration) :
      StoredAs id package (.enumeration e) (.enumeration { e with owner := id })

/-! ## 1. Stored definitions -/

theorem FieldType.stampedAs_iff {package : String} {t t' : FieldType} :
    t.StampedAs package t' ↔ t' = t.withPackage package := by
  constructor
  · intro h
    induction h with
    | base => rfl
    | given => rfl
    | missing => rfl
    | map _ _ ihkey ihvalue => rw [withPackage, ihkey, ihvalue]
  · rintro rfl
    induction t with
    | base b => exact .base b
    | reference own name target =>
      cases own with
      | none => exact .missing name target
      | some own => exact .given own name target
    | map key value ihkey ihvalue => exact .map ihkey ihvalue

theorem Definition.storedAs_iff {id : FileId} {package : String} {d stored : Definition} :
    d.StoredAs id package stored ↔ stored = d.registered id package := by
  have hfield {x y : Field} :
      Field.StampedAs package x y ↔ y = { x with type := x.type.withPackage package } := by
    rw [Field.StampedAs, FieldType.stampedAs_iff]
    constructor
    · rintro ⟨htype, hrest⟩
      rw [hrest, htype]
    · rintro rfl
      exact ⟨rfl, rfl⟩
  constructor
  · rintro (⟨hfields⟩ | ⟨e⟩)
    · next m fields =>
      have heq : fields = (m.registered id package).fields := by
        show fields = m.fields.map _
        generalize m.fields = given at hfields
        induction hfields with
        | nil => rfl
        | cons hx _ ih => rw [hfield.1 hx, ih, List.map_cons]
      rw [registered, heq]
      rfl
    · rfl
  · rintro rfl
    cases d with
    | message m =>
      refine .message ?_
      rw [List.forall₂_map_right_iff, List.forall₂_same]
      exact fun x _ => hfield.2 rfl
    | enumeration e => exact .enumeration e

/-! ## 2. Map and lists -/

namespace SchemaFile

variable {f : SchemaFile} {name : String} {a : DefinitionId} {d x : Definition}
  {e : RegistrationError}

/-- A file that can be asked for names: its map is in step with its lists, no two definitions share
a name, and all are its own. -/
structure IsRegister (f : SchemaFile) : Prop where
  indexed : f.IsIndexed
  nodup : f.names.Nodup
  owner : ∀ d ∈ f.held, d.owner = f.id

namespace IsRegister

theorem mem_definitions_iff (h : f.IsRegister) :
    (name, a) ∈ f.definitions.entries ↔ f.Owns name a :=
  NameMap.mem_entries_iff.trans (h.indexed name a)

/-- The map has each name of the lists once. -/
theorem keys_perm (h : f.IsRegister) : (f.definitions.entries.map (·.1)).Perm f.names := by
  have hkeys : (f.definitions.entries.map (·.1)).Nodup := by
    refine List.pairwise_map.2 (f.definitions.ordered.imp ?_)
    intro e e' hlt heq
    exact String.lt_irrefl e'.1 (heq ▸ hlt)
  refine (List.perm_ext_iff_of_nodup hkeys h.nodup).2 fun name => ?_
  rw [mem_names_iff, List.mem_map]
  constructor
  · rintro ⟨⟨_, a⟩, hmem, rfl⟩
    exact ⟨a, h.mem_definitions_iff.1 hmem⟩
  · rintro ⟨a, howns⟩
    exact ⟨(name, a), h.mem_definitions_iff.2 howns, rfl⟩

theorem definition?_eq_some_iff (h : f.IsRegister) :
    f.definition? name = some d ↔ d ∈ f.held ∧ d.name = name := by
  rw [definition?, Option.bind_eq_some_iff, mem_held_iff]
  constructor
  · rintro ⟨a, ha, hd⟩
    obtain ⟨d', hd', hname⟩ := owns_iff.1 ((h.indexed name a).1 ha)
    rw [hd] at hd'
    obtain rfl := Option.some.inj hd'
    exact ⟨⟨a, hd⟩, hname⟩
  · rintro ⟨⟨a, ha⟩, hname⟩
    exact ⟨a, (h.indexed name a).2 (owns_iff.2 ⟨d, ha, hname⟩), ha⟩

end IsRegister

/-! ## 3. Single calls -/

/-- What a call can do: take in a header, register a definition, or refuse one. A refusal is told by
the map and comes before anything is written. -/
theorem take_cases (f : SchemaFile) (call : Addition) :
    (∃ h, call = .header h ∧ (take call).run f = (.ok none, f.addHeader h)) ∨
    (∃ d package, call = .definition d ∧ f.packageFor d.name = .ok package ∧
      (take call).run f = (.ok (some (f.nextAddress d.kind)), f.put (d.registered f.id package))) ∨
    (∃ d e, call = .definition d ∧ f.packageFor d.name = .error e ∧
      (take call).run f = (.error e, f)) := by
  cases call with
  | header h => exact .inl ⟨h, rfl, rfl⟩
  | definition d =>
    cases hpackage : f.packageFor d.name with
    | ok package =>
      refine .inr (.inl ⟨d, package, rfl, hpackage, ?_⟩)
      rw [take, run_map, register_ok hpackage]
      rfl
    | error e =>
      refine .inr (.inr ⟨d, e, rfl, hpackage, ?_⟩)
      rw [take, run_map, register_error hpackage]
      rfl

theorem take_eq_error_iff :
    ((take (.definition d)).run f).1 = .error e ↔ f.packageFor d.name = .error e := by
  obtain ⟨h, hcall, -⟩ | ⟨d, package, hcall, hpackage, heq⟩ | ⟨d, e', hcall, hpackage, heq⟩ :=
    f.take_cases (.definition d)
  · cases hcall
  · cases hcall
    simp [heq, hpackage]
  · cases hcall
    simp [heq, hpackage]

theorem place_take (f : SchemaFile) (call : Addition) :
    ((take call).run f).2.place = f.place := by
  obtain ⟨h, -, heq⟩ | ⟨d, package, -, -, heq⟩ | ⟨d, e, -, -, heq⟩ := f.take_cases call <;>
    rw [heq]
  · exact addHeader_place f h
  · exact put_place _

theorem get?_addHeader (f : SchemaFile) (h : Header) (a : DefinitionId) :
    (f.addHeader h).get? a = f.get? a := by
  unfold addHeader
  split <;> rfl

/-- A call leaves all definitions where they are. It adds the one that it gives an address for. -/
theorem get?_take {call : Addition} :
    ((take call).run f).2.get? a = some x ↔
      f.get? a = some x ∨
        ∃ d package, call = .definition d ∧ ((take call).run f).1 = .ok (some a) ∧
          f.package? = some package ∧ x = d.registered f.id package := by
  obtain ⟨h, rfl, heq⟩ | ⟨d, package, rfl, hpackage, heq⟩ | ⟨d, e, rfl, -, heq⟩ :=
    f.take_cases call
  · rw [heq, get?_addHeader]
    simp
  · obtain ⟨-, hsome⟩ := packageFor_eq_ok_iff.1 hpackage
    rw [heq, get?_put, Definition.kind_registered]
    refine or_congr_right ⟨?_, ?_⟩
    · rintro ⟨rfl, rfl⟩
      exact ⟨d, package, rfl, rfl, hsome, rfl⟩
    · rintro ⟨_, _, ⟨⟩, ⟨⟩, hpackage', rfl⟩
      rw [hsome] at hpackage'
      cases hpackage'
      exact ⟨rfl, rfl⟩
  · rw [heq]
    simp

/-- A call keeps the map in step with the lists, whether it is refused or not. -/
theorem IsRegister.take (hf : f.IsRegister) (call : Addition) :
    ((take call).run f).2.IsRegister := by
  obtain ⟨h, -, heq⟩ | ⟨d, package, -, hpackage, heq⟩ | ⟨d, e, -, -, heq⟩ := f.take_cases call <;>
    rw [heq]
  · obtain ⟨hmessages, henums, -⟩ := addHeader_definitions f h
    have hid : (f.addHeader h).id = f.id := congrArg (·.1) (addHeader_place f h)
    refine ⟨hf.indexed.addHeader h, ?_, ?_⟩
    · rw [names, hmessages, henums]
      exact hf.nodup
    · rw [held, hmessages, henums, hid]
      exact hf.owner
  · obtain ⟨hfree, -⟩ := packageFor_eq_ok_iff.1 hpackage
    have hheld : (f.put (d.registered f.id package)).held.Perm _ := held_put
    refine ⟨hf.indexed.put (by rwa [Definition.name_registered]), ?_, fun x hx => ?_⟩
    · rw [← map_name_held, (hheld.map _).nodup_iff, List.map_cons, map_name_held,
        Definition.name_registered, List.nodup_cons]
      exact ⟨(hf.indexed.eq_none_iff d.name).1 hfree, hf.nodup⟩
    · rw [id_put]
      rcases List.mem_cons.1 (hheld.mem_iff.1 hx) with rfl | hold
      · exact Definition.owner_registered
      · exact hf.owner x hold
  · exact hf

theorem package?_take (f : SchemaFile) (call : Addition) :
    ((take call).run f).2.package? = call.package?.or f.package? := by
  obtain ⟨h, rfl, heq⟩ | ⟨d, package, rfl, -, heq⟩ | ⟨d, e, rfl, -, heq⟩ := f.take_cases call <;>
    rw [heq]
  · obtain ⟨kind, name, value⟩ := h
    cases kind with
    | level | package =>
      rw [package?, addHeader, Header.valueIn?_putInto, Addition.package?]
      by_cases hname : name = "package" <;> simp [hname, package?]
    | importing | option => simp [addHeader, package?, Addition.package?]
  · exact package?_congr (put_headers _)
  · rfl

/-! ## 4. Runs of calls -/

theorem place_after (f : SchemaFile) (calls : List Addition) :
    (f.after calls).place = f.place := by
  induction calls generalizing f with
  | nil => rfl
  | cons call rest ih => exact (ih ((take call).run f).2).trans (f.place_take call)

theorem IsRegister.after (hf : f.IsRegister) (calls : List Addition) :
    (f.after calls).IsRegister := by
  induction calls generalizing f with
  | nil => exact hf
  | cons call rest ih => exact ih (hf.take call)

theorem package?_after (f : SchemaFile) (calls : List Addition) :
    (f.after calls).package? = (calls.filterMap (·.package?)).getLast?.or f.package? := by
  induction calls generalizing f with
  | nil => rfl
  | cons call rest ih =>
    have hrest := ih ((take call).run f).2
    rw [package?_take, ← Option.or_assoc] at hrest
    refine hrest.trans ?_
    cases hcall : call.package? with
    | none => rw [List.filterMap_cons_none hcall, Option.or_none]
    | some package =>
      rw [List.filterMap_cons_some hcall, List.getLast?_cons]
      cases (rest.filterMap (·.package?)).getLast? <;> rfl

/-- The definitions of a file are those it began with and those that calls have registered, each
under the address that its call gave out. -/
theorem get?_after {calls : List Addition} :
    (f.after calls).get? a = some x ↔
      f.get? a = some x ∨
        ∃ before d rest package, calls = before ++ .definition d :: rest ∧
          ((take (.definition d)).run (f.after before)).1 = .ok (some a) ∧
          (f.after before).package? = some package ∧ x = d.registered f.id package := by
  induction calls generalizing f with
  | nil => simp [after]
  | cons call rest ih =>
    have hid : ((take call).run f).2.id = f.id := congrArg (·.1) (f.place_take call)
    refine (ih (f := ((take call).run f).2)).trans ?_
    rw [get?_take, hid, or_assoc]
    refine or_congr_right ⟨?_, ?_⟩
    · rintro (⟨d, package, rfl, hanswer, hpackage, hx⟩ | ⟨before, d, behind, package, rfl, hrest⟩)
      · exact ⟨[], d, rest, package, rfl, hanswer, hpackage, hx⟩
      · exact ⟨call :: before, d, behind, package, rfl, hrest⟩
    · rintro ⟨before, d, behind, package, hsplit, hrest⟩
      cases before with
      | nil =>
        cases hsplit
        exact .inl ⟨d, package, rfl, hrest⟩
      | cons first before =>
        cases hsplit
        exact .inr ⟨before, d, behind, package, rfl, hrest⟩

end SchemaFile

/-- What a file holds after any calls, some of which may have been refused.

Its definitions have distinct names, which are those of its map, and the map leads from a name to an
address just if the definition there has the name. So does a lookup of the address or of the
definition. A further definition is refused if its name is taken, and otherwise if there is no
package, and a refusal changes nothing. The definitions are just those that were not refused: each
stands under the address that was given out for it, belongs to the file, and its references have the
packages they were given with, or else the one in force when it was registered. -/
theorem registered_by_calls (id : FileId) (rootDir file path : Path) (calls : List Addition) :
    let start := SchemaFile.empty id rootDir file path
    let f := start.after calls
    f.names.Nodup ∧
    (f.definitions.entries.map (·.1)).Perm f.names ∧
    (∀ name a, (name, a) ∈ f.definitions.entries ↔
      a.file = id ∧ ∃ d, f.definitionAt? a.kind a.index = some d ∧ d.name = name) ∧
    (∀ name a, f.definitionId? name = some a ↔
      a.file = id ∧ ∃ d, f.definitionAt? a.kind a.index = some d ∧ d.name = name) ∧
    (∀ name d, f.definition? name = some d ↔ d ∈ f.held ∧ d.name = name) ∧
    (∀ d ∈ f.held, d.owner = id) ∧
    f.package? = (calls.filterMap (·.package?)).getLast? ∧
    (∀ d e, ((SchemaFile.take (.definition d)).run f).1 = .error e ↔
      d.name ∈ f.names ∧ e = .duplicate file d.name ∨
        d.name ∉ f.names ∧ f.package? = none ∧ e = .missingPackage file d.name) ∧
    (∀ call e, ((SchemaFile.take call).run f).1 = .error e →
      ((SchemaFile.take call).run f).2 = f) ∧
    (∀ a stored, f.get? a = some stored ↔
      ∃ before d rest package, calls = before ++ .definition d :: rest ∧
        ((SchemaFile.take (.definition d)).run (start.after before)).1 = .ok (some a) ∧
        (start.after before).package? = some package ∧ d.StoredAs id package stored) := by
  intro start f
  have hplace : f.place = start.place := start.place_after calls
  have hid : f.id = id := congrArg (·.1) hplace
  have hfile : f.file = file := congrArg (·.2.2.1) hplace
  have hempty : start.IsRegister :=
    ⟨.of_empty rfl rfl rfl, List.nodup_nil, List.forall_mem_nil _⟩
  have hf : f.IsRegister := hempty.after calls
  refine ⟨hf.nodup, hf.keys_perm, fun name a => ?_, fun name a => ?_,
    fun name d => hf.definition?_eq_some_iff, fun d hd => (hf.owner d hd).trans hid, ?_,
    fun d e => ?_, fun call e herror => ?_, fun a stored => ?_⟩
  · rw [hf.mem_definitions_iff, SchemaFile.Owns, hid]
  · rw [hf.indexed name a, SchemaFile.Owns, hid]
  · exact (start.package?_after calls).trans (Option.or_none)
  · rw [SchemaFile.take_eq_error_iff, SchemaFile.packageFor_eq_error_iff, hf.indexed.isSome_iff,
      hf.indexed.eq_none_iff, hfile]
  · obtain ⟨h, -, heq⟩ | ⟨d, package, -, -, heq⟩ | ⟨d, e', -, -, heq⟩ := f.take_cases call
    · rw [heq] at herror
      cases herror
    · rw [heq] at herror
      cases herror
    · rw [heq]
  · refine SchemaFile.get?_after.trans ?_
    have hnone : start.get? a ≠ some stored := fun hsome => by
      have hheld := SchemaFile.mem_held_iff.2 ⟨a, hsome⟩
      cases hheld
    simp only [hnone, false_or, Definition.storedAs_iff]
    exact Iff.rfl

/-- A message with a map of maps, registered in the package `p`. Then the package changes, and an
enumeration comes with the name of the message. -/
def movedPackage : List Addition :=
  let target : DefinitionId := ⟨0, .message, 0⟩
  let values : FieldType := .map (.reference none "M" target) (.reference (some "r") "N" target)
  [.header ⟨.package, "package", "p"⟩,
   .definition (.message ⟨⟨"M", none, false⟩, 5,
     [⟨⟨"x", none, false⟩, 1, 0, .map (.base .string) values, .singular⟩]⟩),
   .header ⟨.package, "package", "q"⟩,
   .definition (.enumeration ⟨⟨"M", none, false⟩, 5, []⟩)]

/-- The message keeps its address and the package that it was registered in. -/
theorem registered_by_calls_movedPackage :
    let f := (SchemaFile.empty 7 ⟨"/s"⟩ ⟨"a"⟩ ⟨"/s/a"⟩).after movedPackage
    let target : DefinitionId := ⟨0, .message, 0⟩
    let values : FieldType :=
      .map (.reference (some "p") "M" target) (.reference (some "r") "N" target)
    f.package? = some "q" ∧
      f.get? ⟨7, .message, 0⟩ = some (.message ⟨⟨"M", none, false⟩, 7,
        [⟨⟨"x", none, false⟩, 1, 0, .map (.base .string) values, .singular⟩]⟩) ∧
      f.definitions.entries = [("M", ⟨7, .message, 0⟩)] ∧
      ∀ e, ((SchemaFile.take (.definition (.enumeration ⟨⟨"M", none, false⟩, 5, []⟩))).run f).1 =
        .error e → e = .duplicate ⟨"a"⟩ "M" := by
  obtain ⟨-, -, -, -, -, -, hpackage, herror, -, hget⟩ :=
    registered_by_calls 7 ⟨"/s"⟩ ⟨"a"⟩ ⟨"/s/a"⟩ movedPackage
  refine ⟨hpackage, (hget _ _).2 ?_, by decide, fun e he => ?_⟩
  · refine ⟨[.header ⟨.package, "package", "p"⟩], _, _, "p", rfl, by decide, by decide, ?_⟩
    exact .message (.cons ⟨.map (.base _) (.map (.missing _ _) (.given _ _ _)), rfl⟩ .nil)
  · rcases (herror _ e).1 he with ⟨-, rfl⟩ | ⟨hfree, -⟩
    · rfl
    · exact absurd (by decide) hfree

end SchemaGen
