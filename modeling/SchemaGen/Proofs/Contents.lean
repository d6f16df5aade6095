import SchemaGen.Proofs.NameLookup
import Mathlib.Data.List.Forall2

/-!
# What a filled file holds

Filling a file looks the types of its fields up before any definition is registered, with the
addresses that the definitions will have. This module says what comes of it: the definitions of the
file are those of its document, one by one and in order, each under the address that was foreseen
for it.

Results:
1. `SchemaFile.fill_contents`: messages and enumerations correspond to their declarations.
2. `Scope.owns_of_own?`: the address foreseen for a name is that of its definition.
-/

namespace SchemaGen

open FillingLemmas

/-! ## Definitions -/

/-- The field `f` is the declared field `d`, its type looked up in `s`. -/
structure FieldBuilt (s : Scope) (package : String) (d : FieldDecl) (f : Field) : Prop where
  described : f.toDescribed = d.toDescribed
  number : f.number = d.number
  cardinality : f.cardinality = d.cardinality
  type : ∃ file type, s.fieldType file d.name d.type = .ok type ∧ f.type = type.withPackage package

/-- The message `m` of file `id` is the declared message `d`, its types looked up in `s`. -/
structure MessageBuilt (s : Scope) (id : FileId) (d : MessageDecl) (m : Message) : Prop where
  described : m.toDescribed = d.toDescribed
  owner : m.owner = id
  fields : ∃ package, s.package = some package ∧
    List.Forall₂ (FieldBuilt s package) d.members m.fields

/-! ## 1. Contents -/

namespace ContentsLemmas

variable {α β : Type} {items : List α} {bs : List β} {s : Scope} {file : String} {d : MessageDecl}
  {m : Message} {f f' : SchemaFile}

theorem forall₂_of_mapM {ε : Type} {f : α → Except ε β} (h : items.mapM f = .ok bs) :
    List.Forall₂ (fun a b => f a = .ok b) items bs := by
  induction items generalizing bs with
  | nil =>
    cases h
    exact .nil
  | cons a items ih =>
    rw [List.mapM_cons] at h
    obtain ⟨b, hb, hrest⟩ := bind_eq_ok.1 h
    obtain ⟨others, hothers, hbs⟩ := bind_eq_ok.1 hrest
    cases hbs
    exact .cons hb (ih hothers)

theorem forall₂_of_zipIdx {R : α → β → Prop}
    (h : List.Forall₂ (fun a b => R a.1 b) items.zipIdx bs) : List.Forall₂ R items bs := by
  have hmap : List.Forall₂ R (items.zipIdx.map Prod.fst) bs := List.forall₂_map_left_iff.2 h
  rwa [List.zipIdx_map_fst] at hmap

theorem fields_of_message {id : FileId} (h : s.message file id d = .ok m) (package : String) :
    List.Forall₂ (FieldBuilt s package) d.members
      (m.fields.map fun f => { f with type := f.type.withPackage package }) := by
  obtain ⟨fields, hfields, hm⟩ := bind_eq_ok.1 h
  cases hm
  refine List.forall₂_map_right_iff.2 (forall₂_of_zipIdx ?_)
  refine (forall₂_of_mapM hfields).imp fun item f hf => ?_
  obtain ⟨type, htype, hf⟩ := bind_eq_ok.1 hf
  cases hf
  exact ⟨rfl, rfl, rfl, file, type, htype, rfl⟩

theorem described_of_message {id : FileId} (h : s.message file id d = .ok m) :
    m.toDescribed = d.toDescribed := by
  obtain ⟨fields, -, hm⟩ := bind_eq_ok.1 h
  cases hm
  rfl

theorem messages_of_foldlM {messages : List MessageDecl} (hpackage : s.package = f.package?)
    (h : messages.foldlM (SchemaFile.declareMessage s) f = .ok f') :
    ∃ built, f'.messages = f.messages ++ built ∧ f'.enums = f.enums ∧
      List.Forall₂ (MessageBuilt s f.id) messages built := by
  induction messages generalizing f with
  | nil =>
    cases h
    exact ⟨[], (List.append_nil _).symm, rfl, .nil⟩
  | cons d messages ih =>
    rw [List.foldlM_cons] at h
    obtain ⟨f₁, hstep, hrest⟩ := bind_eq_ok.1 h
    obtain ⟨m, package, hm, -, hsome, rfl⟩ := declareMessage_eq_ok_iff.1 hstep
    obtain ⟨built, hmessages, henums, hbuilt⟩ :=
      ih (f := f.put (.message (m.registered f.id package))) hpackage hrest
    have hdescribed : m.toDescribed = d.toDescribed := described_of_message hm
    refine ⟨m.registered f.id package :: built, ?_, henums, .cons ?_ hbuilt⟩
    · exact hmessages.trans (List.append_assoc f.messages [_] built)
    · exact ⟨hdescribed, rfl, package, hpackage.trans hsome, fields_of_message hm package⟩

theorem enums_of_foldlM {enums : List EnumDecl}
    (h : enums.foldlM SchemaFile.declareEnumeration f = .ok f') :
    f'.messages = f.messages ∧ f'.enums = f.enums ++ enums.map (Scope.enumeration f.id) := by
  induction enums generalizing f with
  | nil =>
    cases h
    exact ⟨rfl, (List.append_nil _).symm⟩
  | cons d enums ih =>
    rw [List.foldlM_cons] at h
    obtain ⟨f₁, hstep, hrest⟩ := bind_eq_ok.1 h
    obtain ⟨-, -, rfl⟩ := declareEnumeration_eq_ok_iff.1 hstep
    obtain ⟨hmessages, henums⟩ := ih hrest
    exact ⟨hmessages, henums.trans (List.append_assoc f.enums [_] _)⟩

end ContentsLemmas

open ContentsLemmas

variable {f : SchemaFile} {d : Document} {name : String} {target : DefinitionId}

/-- A file that had no definitions holds those of its document, in their order. -/
theorem SchemaFile.fill_contents {f' : SchemaFile} {g : Graph} (h : f.fill g d = .ok f')
    (hnew : f.IsNew) :
    List.Forall₂ (MessageBuilt ((d.headers.foldl addHeader f).scope g d) f.id) d.messages
        f'.messages ∧
      f'.enums = d.enums.map (Scope.enumeration f.id) := by
  obtain ⟨f₁, hfirst, hsecond⟩ := bind_eq_ok.1 h
  obtain ⟨hmessages₀, henums₀, -⟩ := addHeaders_definitions f d.headers
  have hid : (d.headers.foldl addHeader f).id = f.id :=
    congrArg Prod.fst (addHeaders_place f d.headers)
  obtain ⟨built, hmessages₁, henums₁, hbuilt⟩ := messages_of_foldlM rfl hfirst
  obtain ⟨hmessages₂, henums₂⟩ := enums_of_foldlM hsecond
  obtain ⟨-, -, hplace⟩ := (declareMessage_registers _).foldlM_effect hfirst
  have hid₁ : f₁.id = f.id := (congrArg Prod.fst hplace).trans hid
  rw [hmessages₂, hmessages₁, hmessages₀, hnew.messages, List.nil_append, henums₂, henums₁,
    henums₀, hnew.enums, List.nil_append, hid₁]
  exact ⟨hid ▸ hbuilt, rfl⟩

/-! ## 2. Addresses -/

namespace ContentsLemmas

theorem mem_declared {id : FileId} {d : Document} {name : String} {target : DefinitionId}
    (h : (name, target) ∈ Scope.declared id d) :
    target.file = id ∧
      (target.kind = .message ∧ (∃ m, d.messages[target.index]? = some m ∧ m.name = name) ∨
        target.kind = .enumeration ∧ ∃ e, d.enums[target.index]? = some e ∧ e.name = name) := by
  rcases List.mem_append.1 h with hmessage | henum
  · obtain ⟨⟨m, index⟩, hm, heq⟩ := List.mem_map.1 hmessage
    cases heq
    exact ⟨rfl, .inl ⟨rfl, m, List.mk_mem_zipIdx_iff_getElem?.1 hm, rfl⟩⟩
  · obtain ⟨⟨e, index⟩, he, heq⟩ := List.mem_map.1 henum
    cases heq
    exact ⟨rfl, .inr ⟨rfl, e, List.mk_mem_zipIdx_iff_getElem?.1 he, rfl⟩⟩

theorem exists_of_forall₂ {α β : Type} {R : α → β → Prop} {items : List α} {bs : List β}
    (h : List.Forall₂ R items bs) {i : Nat} {a : α} (ha : items[i]? = some a) :
    ∃ b, bs[i]? = some b ∧ R a b := by
  induction h generalizing i with
  | nil => cases ha
  | cons hR _ ih =>
    cases i with
    | zero =>
      cases ha
      exact ⟨_, rfl, hR⟩
    | succ i => exact ih ha

end ContentsLemmas

/-- The address that was foreseen for a declaration is that of the definition it becomes. -/
theorem Scope.owns_of_own? {s s' : Scope} (hown : s.own = declared f.id d)
    (hmessages : List.Forall₂ (MessageBuilt s' f.id) d.messages f.messages)
    (henums : f.enums = d.enums.map (enumeration f.id)) (h : s.own? name = some target) :
    f.Owns name target := by
  have hmem : (name, target) ∈ declared f.id d := by
    obtain ⟨before, after, hsplit, -⟩ := List.lookup_eq_some_iff.1 h
    rw [← hown, ← List.mem_reverse, hsplit]
    exact List.mem_append_right before List.mem_cons_self
  obtain ⟨hfile, ⟨hkind, m, hm, rfl⟩ | ⟨hkind, e, he, rfl⟩⟩ := mem_declared hmem
  · obtain ⟨built, hbuilt, hsame⟩ := exists_of_forall₂ hmessages hm
    refine ⟨hfile, .message built, ?_, congrArg Described.name hsame.described⟩
    rw [hkind, SchemaFile.definitionAt?, hbuilt]
    rfl
  · refine ⟨hfile, .enumeration (enumeration f.id e), ?_, rfl⟩
    rw [hkind, SchemaFile.definitionAt?, henums, List.getElem?_map, he]
    rfl

end SchemaGen
