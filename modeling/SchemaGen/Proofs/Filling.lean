import SchemaGen.Catalog.Scope
import SchemaGen.Proofs.NameIndex

/-!
# Filling a schema file

A new file is filled with what its document declares: first all headers, then the messages one by
one, then the enumerations. This module says when that succeeds and what comes of it, so that other
proofs need not look at the single registrations.

Results:
1. `Registers`: what registering one definition does, and from that what registering many does.
2. `SchemaFile.fill_effect`, `SchemaFile.IsIndexed.fill`: a filled file keeps its number, its paths
   and its dependencies, it has the definitions and the package of its document, and its map leads
   to its definitions.
3. `SchemaFile.fill_isOk_iff`: filling succeeds just if no name is defined twice, definitions come
   with a package, and every type name means something.
-/

namespace SchemaGen

/-! ## Definitions -/

/-- The names that a document defines. -/
def Document.names (d : Document) : List String :=
  d.messages.map (·.name) ++ d.enums.map (·.name)

/-- The names that a type is written with. -/
def TypeExpr.names : TypeExpr → List String
  | .named name => [name]
  | .map key value => [key, value]

/-- What filling a file leaves alone. -/
def SchemaFile.place (f : SchemaFile) : FileId × Path × Path × Path × List FileId :=
  (f.id, f.rootDir, f.file, f.path, f.dependencies)

/-- A type name that means something. -/
def Scope.Knows (s : Scope) (name : String) : Prop :=
  (BaseType.ofName? name).isSome ∨ (s.lookup? name).isSome

/-- A file into which nothing has been registered. -/
structure SchemaFile.IsNew (f : SchemaFile) : Prop where
  messages : f.messages = []
  enums : f.enums = []
  definitions : f.definitions = .empty

/-! ## Helpers -/

namespace FillingLemmas

variable {ε α : Type} {f f' : SchemaFile}

theorem bind_eq_ok {β : Type} {x : Except ε α} {f : α → Except ε β} {b : β} :
    x >>= f = .ok b ↔ ∃ a, x = .ok a ∧ f a = .ok b := by
  cases x with
  | error e =>
    constructor
    · intro h
      cases h
    · rintro ⟨a, ha, -⟩
      cases ha
  | ok a =>
    constructor
    · intro h
      exact ⟨a, rfl, h⟩
    · rintro ⟨a', ha, h⟩
      cases ha
      exact h

theorem mapM_isOk_iff {β : Type} (f : α → Except ε β) (items : List α) :
    (∃ bs, items.mapM f = .ok bs) ↔ ∀ a ∈ items, ∃ b, f a = .ok b := by
  induction items with
  | nil => exact ⟨fun _ a ha => absurd ha List.not_mem_nil, fun _ => ⟨[], rfl⟩⟩
  | cons a rest ih =>
    rw [List.mapM_cons]
    constructor
    · rintro ⟨bs, hbs⟩
      obtain ⟨b, hb, hrest⟩ := bind_eq_ok.1 hbs
      obtain ⟨others, hothers, -⟩ := bind_eq_ok.1 hrest
      intro a' ha'
      rcases List.mem_cons.1 ha' with rfl | ha'
      · exact ⟨b, hb⟩
      · exact ih.1 ⟨others, hothers⟩ a' ha'
    · intro h
      obtain ⟨b, hb⟩ := h a List.mem_cons_self
      obtain ⟨others, hothers⟩ := ih.2 fun a' ha' => h a' (List.mem_cons_of_mem _ ha')
      exact ⟨b :: others, bind_eq_ok.2 ⟨b, hb, bind_eq_ok.2 ⟨others, hothers, rfl⟩⟩⟩

theorem mapError_eq_ok_iff {ε' : Type} {f : ε → ε'} {x : Except ε α} {a : α} :
    x.mapError f = .ok a ↔ x = .ok a := by
  cases x <;> simp [Except.mapError]

/-! ### Headers -/

theorem addHeader_place (f : SchemaFile) (h : Header) : (f.addHeader h).place = f.place := by
  unfold SchemaFile.addHeader
  split <;> rfl

theorem addHeader_definitions (f : SchemaFile) (h : Header) :
    (f.addHeader h).messages = f.messages ∧ (f.addHeader h).enums = f.enums ∧
      (f.addHeader h).definitions = f.definitions := by
  unfold SchemaFile.addHeader
  split <;> exact ⟨rfl, rfl, rfl⟩

theorem addHeaders_place (f : SchemaFile) (headers : List Header) :
    (headers.foldl SchemaFile.addHeader f).place = f.place := by
  induction headers generalizing f with
  | nil => rfl
  | cons h rest ih => exact (ih (f.addHeader h)).trans (addHeader_place f h)

theorem addHeaders_definitions (f : SchemaFile) (headers : List Header) :
    (headers.foldl SchemaFile.addHeader f).messages = f.messages ∧
      (headers.foldl SchemaFile.addHeader f).enums = f.enums ∧
      (headers.foldl SchemaFile.addHeader f).definitions = f.definitions := by
  induction headers generalizing f with
  | nil => exact ⟨rfl, rfl, rfl⟩
  | cons h rest ih =>
    obtain ⟨hmessages, henums, hdefinitions⟩ := addHeader_definitions f h
    obtain ⟨hmessages', henums', hdefinitions'⟩ := ih (f.addHeader h)
    exact ⟨hmessages'.trans hmessages, henums'.trans henums, hdefinitions'.trans hdefinitions⟩

/-! ### Registrations -/

theorem declare_eq_ok_iff {d : Definition} :
    f.declare d = .ok f' ↔
      ∃ package, f.definitionId? d.name = none ∧ f.package? = some package ∧
        f' = f.put (d.registered f.id package) := by
  unfold SchemaFile.declare
  cases hpackage : f.packageFor d.name with
  | ok package =>
    obtain ⟨hfree, hsome⟩ := SchemaFile.packageFor_eq_ok_iff.1 hpackage
    rw [SchemaFile.register_ok hpackage]
    simp [hfree, hsome, eq_comm]
  | error e =>
    rw [SchemaFile.register_error hpackage]
    constructor
    · intro h
      cases h
    · rintro ⟨package, hfree, hsome, -⟩
      rw [SchemaFile.packageFor_eq_ok_iff.2 ⟨hfree, hsome⟩] at hpackage
      cases hpackage

/-! ### Types -/

theorem namedType_isOk_iff (s : Scope) (file field name : String) :
    (∃ t, s.namedType file field name = .ok t) ↔ s.Knows name := by
  unfold Scope.namedType Scope.Knows
  split
  · next base hbase => simp [hbase]
  · next hbase =>
    split
    · next package target htarget => simp [htarget]
    · next hnone => simp [hbase, hnone]

theorem fieldType_isOk_iff (s : Scope) (file field : String) (type : TypeExpr) :
    (∃ t, s.fieldType file field type = .ok t) ↔ ∀ name ∈ type.names, s.Knows name := by
  cases type with
  | named name =>
    rw [TypeExpr.names, List.forall_mem_singleton]
    exact namedType_isOk_iff s file field name
  | map key value =>
    rw [TypeExpr.names, List.forall_mem_cons, List.forall_mem_singleton,
      ← namedType_isOk_iff s file field, ← namedType_isOk_iff s file field]
    constructor
    · rintro ⟨t, ht⟩
      obtain ⟨k, hk, hrest⟩ := bind_eq_ok.1 ht
      obtain ⟨v, hv, -⟩ := bind_eq_ok.1 hrest
      exact ⟨⟨k, hk⟩, ⟨v, hv⟩⟩
    · rintro ⟨⟨k, hk⟩, ⟨v, hv⟩⟩
      exact ⟨.map k v, bind_eq_ok.2 ⟨k, hk, bind_eq_ok.2 ⟨v, hv, rfl⟩⟩⟩

theorem field_isOk_iff (s : Scope) (file : String) (d : FieldDecl × Nat) :
    (∃ f, s.field file d = .ok f) ↔ ∀ name ∈ d.1.type.names, s.Knows name := by
  rw [← fieldType_isOk_iff s file d.1.name]
  constructor
  · rintro ⟨f, hf⟩
    obtain ⟨t, ht, -⟩ := bind_eq_ok.1 hf
    exact ⟨t, ht⟩
  · rintro ⟨t, ht⟩
    exact ⟨_, bind_eq_ok.2 ⟨t, ht, rfl⟩⟩

theorem message_isOk_iff (s : Scope) (file : String) (id : FileId) (d : MessageDecl) :
    (∃ m, s.message file id d = .ok m) ↔
      ∀ field ∈ d.members, ∀ name ∈ field.type.names, s.Knows name := by
  have hfields : (∃ fields, d.members.zipIdx.mapM (s.field file) = .ok fields) ↔
      ∀ field ∈ d.members, ∀ name ∈ field.type.names, s.Knows name := by
    rw [mapM_isOk_iff]
    constructor
    · intro h field hfield
      obtain ⟨index, hindex⟩ := List.getElem?_of_mem hfield
      exact (field_isOk_iff s file (field, index)).1
        (h (field, index) (List.mk_mem_zipIdx_iff_getElem?.2 hindex))
    · intro h item hitem
      exact (field_isOk_iff s file item).2 (h item.1 (List.fst_mem_of_mem_zipIdx hitem))
  rw [← hfields]
  constructor
  · rintro ⟨m, hm⟩
    obtain ⟨fields, hfields, -⟩ := bind_eq_ok.1 hm
    exact ⟨fields, hfields⟩
  · rintro ⟨fields, hfields⟩
    exact ⟨_, bind_eq_ok.2 ⟨fields, hfields, rfl⟩⟩

theorem message_name {s : Scope} {file : String} {id : FileId} {d : MessageDecl} {m : Message}
    (h : s.message file id d = .ok m) : m.name = d.name := by
  obtain ⟨fields, -, hm⟩ := bind_eq_ok.1 h
  cases hm
  rfl

/-! ### Registering definitions one after the other -/

/-- What a step that registers a definition does to a file: it succeeds just if the definition is
good, its name is free and there is a package, and then the file has one name more, in the lists and
in the map. -/
structure Registers {μ : Type} (step : SchemaFile → μ → Except LoadError SchemaFile)
    (name : μ → String) (Good : μ → Prop) : Prop where
  isOk_iff : ∀ f a, (∃ f', step f a = .ok f') ↔
    Good a ∧ f.definitionId? (name a) = none ∧ f.package?.isSome
  mem_names : ∀ {f f' a}, step f a = .ok f' → ∀ n, n ∈ f'.names ↔ n ∈ f.names ∨ n = name a
  indexed : ∀ {f f' a}, step f a = .ok f' → f.IsIndexed → f'.IsIndexed
  headers : ∀ {f f' a}, step f a = .ok f' → f'.headers = f.headers
  place : ∀ {f f' a}, step f a = .ok f' → f'.place = f.place

theorem package?_congr (h : f'.headers = f.headers) : f'.package? = f.package? :=
  congrArg (Header.valueIn? "package") h

section Fold

variable {μ : Type} {step : SchemaFile → μ → Except LoadError SchemaFile} {name : μ → String}
  {Good : μ → Prop}

/-- What registering all of `items` keeps and what it adds. -/
theorem Registers.foldlM_effect (r : Registers step name Good) {f f' : SchemaFile}
    {items : List μ} (h : items.foldlM step f = .ok f') :
    (∀ n, n ∈ f'.names ↔ n ∈ f.names ∨ n ∈ items.map name) ∧ f'.headers = f.headers ∧
      f'.place = f.place := by
  induction items generalizing f with
  | nil =>
    cases h
    simp
  | cons a rest ih =>
    rw [List.foldlM_cons] at h
    obtain ⟨f₁, hstep, hrest⟩ := bind_eq_ok.1 h
    obtain ⟨hnames, hheaders, hplace⟩ := ih hrest
    refine ⟨fun n => ?_, hheaders.trans (r.headers hstep), hplace.trans (r.place hstep)⟩
    rw [hnames n, r.mem_names hstep n, List.map_cons, List.mem_cons, or_assoc]

/-- Registering one by one keeps the map in step with the lists. -/
theorem Registers.foldlM_indexed (r : Registers step name Good) {f f' : SchemaFile}
    {items : List μ} (h : items.foldlM step f = .ok f') (hf : f.IsIndexed) : f'.IsIndexed := by
  induction items generalizing f with
  | nil =>
    cases h
    exact hf
  | cons a rest ih =>
    rw [List.foldlM_cons] at h
    obtain ⟨f₁, hstep, hrest⟩ := bind_eq_ok.1 h
    exact ih hrest (r.indexed hstep hf)

theorem Registers.foldlM_isOk_iff (r : Registers step name Good) {f : SchemaFile}
    (hf : f.IsIndexed) (items : List μ) :
    (∃ f', items.foldlM step f = .ok f') ↔
      (∀ a ∈ items, Good a) ∧ (items.map name).Nodup ∧ (∀ n ∈ items.map name, n ∉ f.names) ∧
        (items ≠ [] → f.package?.isSome) := by
  induction items generalizing f with
  | nil => simpa using ⟨f, rfl⟩
  | cons a rest ih =>
    have hfirst := r.isOk_iff f a
    rw [hf.eq_none_iff] at hfirst
    rw [List.foldlM_cons, List.map_cons, List.nodup_cons, List.forall_mem_cons,
      List.forall_mem_cons]
    constructor
    · rintro ⟨f', h⟩
      obtain ⟨f₁, hstep, hrest⟩ := bind_eq_ok.1 h
      obtain ⟨hgood, hfree, hpackage⟩ := hfirst.1 ⟨f₁, hstep⟩
      obtain ⟨hgoods, hnodup, hfrees, -⟩ := (ih (r.indexed hstep hf)).1 ⟨f', hrest⟩
      have hnew : ∀ n ∈ rest.map name, n ∉ f.names ∧ n ≠ name a := fun n hn =>
        not_or.1 fun hor => hfrees n hn ((r.mem_names hstep n).2 hor)
      exact ⟨⟨hgood, hgoods⟩, ⟨fun hmem => (hnew _ hmem).2 rfl, hnodup⟩,
        ⟨hfree, fun n hn => (hnew n hn).1⟩, fun _ => hpackage⟩
    · rintro ⟨⟨hgood, hgoods⟩, ⟨hnew, hnodup⟩, ⟨hfree, hfrees⟩, hpackage⟩
      obtain ⟨f₁, hstep⟩ := hfirst.2 ⟨hgood, hfree, hpackage (List.cons_ne_nil a rest)⟩
      have hrest : ∃ f', rest.foldlM step f₁ = .ok f' := by
        refine (ih (r.indexed hstep hf)).2 ⟨hgoods, hnodup, fun n hn hmem => ?_, fun _ => ?_⟩
        · rcases (r.mem_names hstep n).1 hmem with hold | rfl
          · exact hfrees n hn hold
          · exact hnew hn
        · rw [package?_congr (r.headers hstep)]
          exact hpackage (List.cons_ne_nil a rest)
      obtain ⟨f', hf'⟩ := hrest
      exact ⟨f', bind_eq_ok.2 ⟨f₁, hstep, hf'⟩⟩

end Fold

theorem put_names (d : Definition) (n : String) :
    n ∈ (f.put d).names ↔ n ∈ f.names ∨ n = d.name := by
  simp only [SchemaFile.mem_names_iff, SchemaFile.owns_put, exists_or, exists_and_left,
    exists_eq, and_true]

theorem put_headers (d : Definition) : (f.put d).headers = f.headers := by
  cases d <;> rfl

theorem put_place (d : Definition) : (f.put d).place = f.place := by
  cases d <;> rfl

theorem declareMessage_eq_ok_iff {s : Scope} {d : MessageDecl} :
    SchemaFile.declareMessage s f d = .ok f' ↔
      ∃ m package, s.message f.file.slashed f.id d = .ok m ∧ f.definitionId? d.name = none ∧
        f.package? = some package ∧ f' = f.put (.message (m.registered f.id package)) := by
  unfold SchemaFile.declareMessage
  constructor
  · intro h
    obtain ⟨m, hm, hdeclare⟩ := bind_eq_ok.1 h
    obtain ⟨package, hfree, hpackage, hf'⟩ := declare_eq_ok_iff.1 hdeclare
    exact ⟨m, package, hm, message_name hm ▸ hfree, hpackage, hf'⟩
  · rintro ⟨m, package, hm, hfree, hpackage, rfl⟩
    rw [← message_name hm] at hfree
    exact bind_eq_ok.2 ⟨m, hm, declare_eq_ok_iff.2 ⟨package, hfree, hpackage, rfl⟩⟩

theorem declareEnumeration_eq_ok_iff {d : EnumDecl} :
    f.declareEnumeration d = .ok f' ↔
      f.definitionId? d.name = none ∧ f.package?.isSome ∧
        f' = f.put (.enumeration (Scope.enumeration f.id d)) := by
  unfold SchemaFile.declareEnumeration
  rw [declare_eq_ok_iff, Option.isSome_iff_exists]
  constructor
  · rintro ⟨package, hfree, hpackage, hf'⟩
    exact ⟨hfree, ⟨package, hpackage⟩, hf'⟩
  · rintro ⟨hfree, ⟨package, hpackage⟩, hf'⟩
    exact ⟨package, hfree, hpackage, hf'⟩

theorem declareMessage_registers (s : Scope) :
    Registers (SchemaFile.declareMessage s) (·.name)
      (fun d => ∀ field ∈ d.members, ∀ name ∈ field.type.names, s.Knows name) where
  isOk_iff f d := by
    rw [← message_isOk_iff s f.file.slashed f.id d]
    constructor
    · rintro ⟨f', h⟩
      obtain ⟨m, package, hm, hfree, hpackage, -⟩ := declareMessage_eq_ok_iff.1 h
      exact ⟨⟨m, hm⟩, hfree, Option.isSome_of_eq_some hpackage⟩
    · rintro ⟨⟨m, hm⟩, hfree, hsome⟩
      obtain ⟨package, hpackage⟩ := Option.isSome_iff_exists.1 hsome
      exact ⟨_, declareMessage_eq_ok_iff.2 ⟨m, package, hm, hfree, hpackage, rfl⟩⟩
  mem_names {f f' d} h n := by
    obtain ⟨m, package, hm, -, -, rfl⟩ := declareMessage_eq_ok_iff.1 h
    rw [put_names, ← message_name hm]
    rfl
  indexed h hf := by
    obtain ⟨m, _, hm, hfree, -, rfl⟩ := declareMessage_eq_ok_iff.1 h
    rw [← message_name hm] at hfree
    exact hf.put hfree
  headers h := by
    obtain ⟨_, _, -, -, -, rfl⟩ := declareMessage_eq_ok_iff.1 h
    exact put_headers _
  place h := by
    obtain ⟨_, _, -, -, -, rfl⟩ := declareMessage_eq_ok_iff.1 h
    exact put_place _

theorem declareEnumeration_registers :
    Registers SchemaFile.declareEnumeration (·.name) (fun _ => True) where
  isOk_iff f d := by
    constructor
    · rintro ⟨f', h⟩
      obtain ⟨hfree, hpackage, -⟩ := declareEnumeration_eq_ok_iff.1 h
      exact ⟨trivial, hfree, hpackage⟩
    · rintro ⟨-, hfree, hpackage⟩
      exact ⟨_, declareEnumeration_eq_ok_iff.2 ⟨hfree, hpackage, rfl⟩⟩
  mem_names h n := by
    obtain ⟨-, -, rfl⟩ := declareEnumeration_eq_ok_iff.1 h
    exact put_names _ n
  indexed h hf := by
    obtain ⟨hfree, -, rfl⟩ := declareEnumeration_eq_ok_iff.1 h
    exact hf.put hfree
  headers h := by
    obtain ⟨-, -, rfl⟩ := declareEnumeration_eq_ok_iff.1 h
    exact put_headers _
  place h := by
    obtain ⟨-, -, rfl⟩ := declareEnumeration_eq_ok_iff.1 h
    exact put_place _

theorem addHeaders_indexed (hf : f.IsIndexed) (headers : List Header) :
    (headers.foldl SchemaFile.addHeader f).IsIndexed := by
  induction headers generalizing f with
  | nil => exact hf
  | cons h rest ih => exact ih (hf.addHeader h)

end FillingLemmas

open FillingLemmas

/-! ## Filled files -/

/-- A filled file has its place and the headers of its document, and the names that the document
defines next to those it had. -/
theorem SchemaFile.fill_effect {f f' : SchemaFile} {g : Graph} {d : Document}
    (h : f.fill g d = .ok f') :
    f'.place = f.place ∧ f'.package? = (d.headers.foldl addHeader f).package? ∧
      ∀ n, n ∈ f'.names ↔ n ∈ f.names ∨ n ∈ d.names := by
  obtain ⟨f₁, hmessages, henums⟩ := bind_eq_ok.1 h
  obtain ⟨hnames₁, hheaders₁, hplace₁⟩ := (declareMessage_registers _).foldlM_effect hmessages
  obtain ⟨hnames₂, hheaders₂, hplace₂⟩ := declareEnumeration_registers.foldlM_effect henums
  obtain ⟨hmessages₀, henums₀, -⟩ := addHeaders_definitions f d.headers
  refine ⟨?_, package?_congr (hheaders₂.trans hheaders₁), fun n => ?_⟩
  · exact (hplace₂.trans hplace₁).trans (addHeaders_place f d.headers)
  · have hnames₀ : (d.headers.foldl addHeader f).names = f.names := by
      rw [names, names, hmessages₀, henums₀]
    rw [hnames₂, hnames₁, hnames₀, Document.names, List.mem_append, or_assoc]

/-- Filling keeps the map in step with the lists. -/
theorem SchemaFile.IsIndexed.fill {f f' : SchemaFile} {g : Graph} {d : Document}
    (hf : f.IsIndexed) (h : f.fill g d = .ok f') : f'.IsIndexed := by
  obtain ⟨f₁, hmessages, henums⟩ := bind_eq_ok.1 h
  have hf₁ : f₁.IsIndexed := (declareMessage_registers _).foldlM_indexed hmessages
    (addHeaders_indexed hf d.headers)
  exact declareEnumeration_registers.foldlM_indexed henums hf₁

theorem SchemaFile.IsNew.isIndexed {f : SchemaFile} (h : f.IsNew) : f.IsIndexed :=
  .of_empty h.messages h.enums h.definitions

/-- When a file without definitions can be filled: no name is defined twice, there is a package if
anything is defined, and every type name in a field means something. -/
theorem SchemaFile.fill_isOk_iff {f : SchemaFile} {g : Graph} {d : Document} (hnew : f.IsNew) :
    (∃ f', f.fill g d = .ok f') ↔
      d.names.Nodup ∧ (d.names ≠ [] → (d.headers.foldl addHeader f).package?.isSome) ∧
        ∀ m ∈ d.messages, ∀ field ∈ m.members, ∀ name ∈ field.type.names,
          ((d.headers.foldl addHeader f).scope g d).Knows name := by
  obtain ⟨hmessages₀, henums₀, -⟩ := addHeaders_definitions f d.headers
  have hnames₀ : (d.headers.foldl addHeader f).names = [] := by
    rw [names, hmessages₀, henums₀, hnew.messages, hnew.enums]
    rfl
  have hindexed := addHeaders_indexed hnew.isIndexed d.headers
  generalize hfull : d.headers.foldl addHeader f = f₀ at hnames₀ hindexed ⊢
  have hregister := declareMessage_registers (f₀.scope g d)
  have hfill : f.fill g d = (do
      let f₁ ← d.messages.foldlM (declareMessage (f₀.scope g d)) f₀
      d.enums.foldlM declareEnumeration f₁) := by
    rw [← hfull]
    rfl
  rw [hfill, Document.names, List.nodup_append]
  constructor
  · rintro ⟨f', h⟩
    obtain ⟨f₁, hmessages, henums⟩ := bind_eq_ok.1 h
    have hindexed₁ := hregister.foldlM_indexed hmessages hindexed
    obtain ⟨hknown, hnodup, -, hpackage⟩ := (hregister.foldlM_isOk_iff hindexed _).1 ⟨f₁, hmessages⟩
    obtain ⟨-, hnodup', hfree, hpackage'⟩ :=
      (declareEnumeration_registers.foldlM_isOk_iff hindexed₁ _).1 ⟨f', henums⟩
    obtain ⟨hnames, hheaders, -⟩ := hregister.foldlM_effect hmessages
    refine ⟨⟨hnodup, hnodup', ?_⟩, ?_, hknown⟩
    · rintro n hn n' hn' rfl
      exact hfree n hn' ((hnames n).2 (.inr hn))
    · intro hne
      -- The first definition asks for the package. It is an enumeration if there are no messages.
      by_cases hnone : d.messages = []
      · rw [← package?_congr hheaders]
        refine hpackage' fun hempty => hne ?_
        rw [hnone, hempty, List.map_nil, List.map_nil, List.append_nil]
      · exact hpackage hnone
  · rintro ⟨⟨hnodup, hnodup', hdisjoint⟩, hpackage, hknown⟩
    have hsome {μ : Type} {items : List μ} {name : μ → String}
        (hsub : items.map name ⊆ d.messages.map (·.name) ++ d.enums.map (·.name))
        (hne : items ≠ []) : f₀.package?.isSome := by
      refine hpackage fun hnone => hne ?_
      rw [hnone] at hsub
      exact List.map_eq_nil_iff.1 (List.subset_nil.1 hsub)
    obtain ⟨f₁, hmessages⟩ := (hregister.foldlM_isOk_iff hindexed d.messages).2
      ⟨hknown, hnodup, by simp [hnames₀], hsome (List.subset_append_left _ _)⟩
    obtain ⟨hnames, hheaders, -⟩ := hregister.foldlM_effect hmessages
    have hindexed₁ := hregister.foldlM_indexed hmessages hindexed
    obtain ⟨f', henums⟩ := (declareEnumeration_registers.foldlM_isOk_iff hindexed₁ d.enums).2 <| by
      refine ⟨fun _ _ => trivial, hnodup', fun n hn hmem => ?_, ?_⟩
      · rcases (hnames n).1 hmem with hold | hmessage
        · rw [hnames₀] at hold
          cases hold
        · exact hdisjoint n hmessage n hn rfl
      · rw [package?_congr hheaders]
        exact hsome (List.subset_append_right _ _)
    exact ⟨f', bind_eq_ok.2 ⟨f₁, hmessages, henums⟩⟩

end SchemaGen
