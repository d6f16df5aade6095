import SchemaGen.Proofs.BoundedLoading
import SchemaGen.Proofs.Contents
import SchemaGen.Proofs.Growth
import SchemaGen.Proofs.ReadDocument
import SchemaGen.Target.Vocabulary

/-!
# Where references lead

A reference in the type of a field is the address of a definition. It is chosen when the file of the
field is built, before any definition of that file is registered, and it has to be right in every
graph that comes later. `Chosen` states the order of preference among the definitions that a file
sees, and the meaning of the types that a document writes is stated with it.

Results:
1. `Scope.Sees.chosen`: a lookup follows the order of preference.
2. `Grown.contents`: every file of a graph holds what its document declares, with types that mean
   what the document writes.
3. `Chosen.leads`: a chosen address lies in the file itself or in one that it depends on, and the
   definition there has the name.
4. `references_valid`: this for every catalog that loads lead to. So every field has a type in every
   target language.
-/

namespace SchemaGen

open FillingLemmas NameLookupLemmas

/-! ## Definitions -/

namespace Graph

/-- None of the files `ids` of which `P` holds defines `name`. -/
def Lacks (g : Graph) (ids : List FileId) (P : SchemaFile → Prop) (name : String) : Prop :=
  ∀ j ∈ ids, ∀ f, g.file? j = some f → P f → name ∉ f.names

/-- The first of the files `ids` of which `P` holds and that defines `name` has it at `id`. -/
def First (g : Graph) (ids : List FileId) (P : SchemaFile → Prop) (name : String)
    (id : DefinitionId) : Prop :=
  ∃ before j after f, ids = before ++ j :: after ∧ g.file? j = some f ∧ P f ∧ f.Owns name id ∧
    g.Lacks before P name

end Graph

/-- The type name `name` gives this package, or none, in front of `short`. Dots at its front do not
count. -/
def Spelled (name : String) (package : Option String) (short : String) : Prop :=
  '.' ∉ short.toList ∧
    Scope.bareName name = match package with
      | some package => package ++ "." ++ short
      | none => short

/-- What the file `f` of the graph means by `short`, with a package or without one in front. -/
inductive Chosen (g : Graph) (f : SchemaFile) : Option String → String → DefinitionId → Prop
  | qualifiedOwn {package short : String} {id : DefinitionId} (hpackage : f.package? = some package)
      (howns : f.Owns short id) : Chosen g f (some package) short id
  | qualifiedOther {package short : String} {id : DefinitionId}
      (hnot : f.package? = some package → short ∉ f.names)
      (hfirst : g.First f.dependencies (·.package? = some package) short id) :
      Chosen g f (some package) short id
  | own {short : String} {id : DefinitionId} (howns : f.Owns short id) : Chosen g f none short id
  | samePackage {short : String} {id : DefinitionId} (hnot : short ∉ f.names)
      (hfirst : g.First f.dependencies (·.package? = f.package?) short id) :
      Chosen g f none short id
  | anyPackage {short : String} {id : DefinitionId} (hnot : short ∉ f.names)
      (hlacks : g.Lacks f.dependencies (·.package? = f.package?) short)
      (hfirst : g.First f.dependencies (fun _ => True) short id) : Chosen g f none short id

/-- The type that a type name stands for in the file `f`. -/
inductive Denotes (g : Graph) (f : SchemaFile) (name : String) : FieldType → Prop
  | base {b : BaseType} (hbase : BaseType.ofName? name = some b) : Denotes g f name (.base b)
  | reference {package : Option String} {own short : String} {id : DefinitionId}
      (hbase : BaseType.ofName? name = none) (hspelled : Spelled name package short)
      (hown : f.package? = some own) (hchosen : Chosen g f package short id) :
      Denotes g f name (.reference (some (package.getD own)) short id)

/-- The type that a written type stands for in the file `f`. -/
inductive DenotesType (g : Graph) (f : SchemaFile) : TypeExpr → FieldType → Prop
  | named {name : String} {type : FieldType} (h : Denotes g f name type) :
      DenotesType g f (.named name) type
  | map {key value : String} {k v : FieldType} (hkey : Denotes g f key k)
      (hvalue : Denotes g f value v) : DenotesType g f (.map key value) (.map k v)

/-- The field `x` of the file `f` stands for the declaration `d`. -/
structure FieldStands (g : Graph) (f : SchemaFile) (d : FieldDecl) (x : Field) : Prop where
  described : x.toDescribed = d.toDescribed
  number : x.number = d.number
  cardinality : x.cardinality = d.cardinality
  type : DenotesType g f d.type x.type

/-- The message `m` of the file `f` stands for the declaration `d`. -/
structure MessageStands (g : Graph) (f : SchemaFile) (d : MessageDecl) (m : Message) : Prop where
  described : m.toDescribed = d.toDescribed
  owner : m.owner = f.id
  fields : List.Forall₂ (FieldStands g f) d.members m.fields

/-- The names and the targets of the references in a type. -/
def FieldType.references : FieldType → List (String × DefinitionId)
  | base _ => []
  | reference _ name target => [(name, target)]
  | map key value => key.references ++ value.references

/-! ## 1. Lookups -/

namespace ReferencesLemmas

theorem spelled_of_split {name package short : String}
    (h : Text.splitLast? '.' (Scope.bareName name) = some (package, short)) :
    Spelled name (some package) short := by
  obtain ⟨heq, hshort⟩ := Text.splitLast?_eq_some_iff.1 h
  refine ⟨hshort, String.toList_inj.1 ?_⟩
  simp [heq]

theorem shortName_of_dot {name short : String} {front : List Char}
    (h : name.toList = front ++ '.' :: short.toList) (hshort : '.' ∉ short.toList) :
    Scope.shortName name = short := by
  have hsplit : Text.splitLast? '.' name = some (String.ofList front, short) :=
    Text.splitLast?_append (by rw [h, String.toList_ofList]) hshort
  rw [Scope.shortName, hsplit]

theorem exists_dots (name : String) :
    ∃ dots, name.toList = dots ++ (Scope.bareName name).toList ∧ ∀ c ∈ dots, c = '.' := by
  refine ⟨name.toList.takeWhile (· = '.'), ?_, fun c hc => ?_⟩
  · rw [Scope.bareName, String.toList_ofList, List.takeWhile_append_dropWhile]
  · simpa using List.mem_takeWhile_imp hc

/-- The recorded name is what is looked up, though the one is cut from the whole name and the other
from what stands behind the dots at its front. -/
theorem shortName_of_spelled {name short : String} {package : Option String}
    (h : Spelled name package short) : Scope.shortName name = short := by
  obtain ⟨hshort, hbare⟩ := h
  obtain ⟨dots, hname, hdots⟩ := exists_dots name
  rw [hbare] at hname
  cases package with
  | some package =>
    have hfront : name.toList = (dots ++ package.toList) ++ '.' :: short.toList := by
      rw [hname]
      simp
    exact shortName_of_dot hfront hshort
  | none =>
    rcases List.eq_nil_or_concat dots with rfl | ⟨others, c, rfl⟩
    · obtain rfl := String.toList_inj.1 hname
      rw [Scope.shortName, Text.splitLast?_of_not_mem hshort]
    · have hlast : name.toList = others ++ '.' :: short.toList := by
        rw [hname, hdots c (by simp)]
        simp
      exact shortName_of_dot hlast hshort

theorem lacks_of_imported? {s : Scope} {P : SchemaFile → Prop} [DecidablePred P] {name : String}
    (hs : s.graph.IsIndexed)
    (h : s.imported? (fun f => decide (P f)) name = none) :
    s.graph.Lacks s.dependencies P name := by
  intro j hj f hf hP hname
  have hsome := (imported?_isSome_iff hs (fun f => decide (P f)) name).2
    ⟨j, hj, f, hf, decide_eq_true hP, hname⟩
  rw [h] at hsome
  cases hsome

theorem first_of_imported? {s : Scope} {P : SchemaFile → Prop} [DecidablePred P] {name : String}
    {id : DefinitionId} (hs : s.graph.IsIndexed)
    (h : s.imported? (fun f => decide (P f)) name = some id) :
    s.graph.First s.dependencies P name id := by
  obtain ⟨before, j, after, hsplit, hfound, hbefore⟩ := List.findSome?_eq_some_iff.1 h
  obtain ⟨f, hf, hid⟩ := Option.bind_eq_some_iff.1 hfound
  have hbefore' : { s with dependencies := before }.imported? (fun f => decide (P f)) name = none :=
    List.findSome?_eq_none_iff.2 hbefore
  split at hid
  · next hP =>
    exact ⟨before, j, after, f, hsplit, hf, of_decide_eq_true hP,
      (hs j f hf name id).1 hid,
      lacks_of_imported? (s := { s with dependencies := before }) hs hbefore'⟩
  · cases hid

/-! ### Larger graphs -/

section Grow

variable {g g' : Graph} {ids : List FileId} {P : SchemaFile → Prop} {name : String}
  (hgrows : g.files <+: g'.files)

include hgrows

theorem lacks_mono (h : g.Lacks ids P name) (hlt : ∀ j ∈ ids, j < g.nextId) :
    g'.Lacks ids P name := by
  intro j hj f hf
  have hsame : g'.file? j = g.file? j := DependenciesLemmas.file?_grow hgrows (hlt j hj)
  exact h j hj f (hsame ▸ hf)

theorem first_mono {id : DefinitionId} (h : g.First ids P name id)
    (hlt : ∀ j ∈ ids, j < g.nextId) : g'.First ids P name id := by
  obtain ⟨before, j, after, f, rfl, hf, hP, howns, hlacks⟩ := h
  refine ⟨before, j, after, f, rfl, Graph.file?_mono hgrows hf, hP, howns, ?_⟩
  exact lacks_mono hgrows hlacks fun j hj => hlt j (List.mem_append_left _ hj)

end Grow

end ReferencesLemmas

open ReferencesLemmas

theorem Graph.IsIndexed.mono {g g' : Graph} (h : g'.IsIndexed) (hgrows : g.files <+: g'.files) :
    g.IsIndexed :=
  fun i f hf => h i f (Graph.file?_mono hgrows hf)

/-- The scope `s` shows the file `f` of the graph `g` as it will be. -/
structure Scope.Sees (s : Scope) (g : Graph) (f : SchemaFile) : Prop where
  grows : s.graph.files <+: g.files
  indexed : s.graph.IsIndexed
  dependencies : s.dependencies = f.dependencies
  lt : ∀ id ∈ f.dependencies, id < s.graph.nextId
  package : s.package = f.package?
  owns : ∀ name id, s.own? name = some id → f.Owns name id
  lacks : ∀ name, s.own? name = none → name ∉ f.names

namespace Scope.Sees

variable {s : Scope} {g : Graph} {f : SchemaFile} {P : SchemaFile → Prop} [DecidablePred P]
  {name : String}

theorem first (h : s.Sees g f) {id : DefinitionId}
    (himported : s.imported? (fun f => decide (P f)) name = some id) :
    g.First f.dependencies P name id :=
  first_mono h.grows (h.dependencies ▸ first_of_imported? h.indexed himported) h.lt

theorem importsLack (h : s.Sees g f) (himported : s.imported? (fun f => decide (P f)) name = none) :
    g.Lacks f.dependencies P name :=
  lacks_mono h.grows (h.dependencies ▸ lacks_of_imported? h.indexed himported) h.lt

/-- A name without a package means the file's own definition before any other. -/
theorem chosen_unqualified (h : s.Sees g f) {id : DefinitionId}
    (hfound : (s.own? name).or ((s.imported? (·.package? = s.package) name).or
      (s.imported? (fun _ => true) name)) = some id) : Chosen g f none name id := by
  rcases Option.or_eq_some_iff.1 hfound with hown | ⟨hown, hother⟩
  · exact .own (h.owns name id hown)
  · rw [h.package] at hother
    rcases Option.or_eq_some_iff.1 hother with hsame | ⟨hsame, hany⟩
    · exact .samePackage (h.lacks name hown) (h.first hsame)
    · exact .anyPackage (h.lacks name hown) (h.importsLack hsame)
        (h.first (P := fun _ => True) hany)

/-- A name with a package means a definition of that package, the file's own before any other. -/
theorem chosen_qualified (h : s.Sees g f) {package : String} {id : DefinitionId}
    (hfound : (if s.package = some package then s.own? name else none).or
      (s.imported? (·.package? = some package) name) = some id) :
    Chosen g f (some package) name id := by
  rw [h.package] at hfound
  split at hfound
  · next hpackage =>
    rcases Option.or_eq_some_iff.1 hfound with hown | ⟨hown, hother⟩
    · exact .qualifiedOwn hpackage (h.owns name id hown)
    · exact .qualifiedOther (fun _ => h.lacks name hown) (h.first hother)
  · next hpackage =>
    rw [Option.none_or] at hfound
    exact .qualifiedOther (fun heq => absurd heq hpackage) (h.first hfound)

theorem chosen (h : s.Sees g f) {package : Option String} {id : DefinitionId}
    (hlookup : s.lookup? name = some (package, id)) :
    ∃ short, Spelled name package short ∧ Chosen g f package short id := by
  unfold lookup? at hlookup
  split at hlookup
  · next qualifier short hsplit =>
    obtain ⟨id', hfound, heq⟩ := Option.map_eq_some_iff.1 hlookup
    cases heq
    exact ⟨short, spelled_of_split hsplit, h.chosen_qualified hfound⟩
  · next hsplit =>
    obtain ⟨id', hfound, heq⟩ := Option.map_eq_some_iff.1 hlookup
    cases heq
    exact ⟨bareName name, ⟨Text.splitLast?_eq_none_iff.1 hsplit, rfl⟩,
      h.chosen_unqualified hfound⟩

/-! ### Types -/

theorem denotes (h : s.Sees g f) {file field package : String} {type : FieldType}
    (hpackage : s.package = some package) (htype : s.namedType file field name = .ok type) :
    Denotes g f name (type.withPackage package) := by
  unfold namedType at htype
  split at htype
  · next b hbase =>
    cases htype
    exact .base hbase
  · next hbase =>
    split at htype
    · next qualifier id hlookup =>
      cases htype
      obtain ⟨short, hspelled, hchosen⟩ := h.chosen hlookup
      rw [shortName_of_spelled hspelled]
      exact .reference hbase hspelled (h.package ▸ hpackage) hchosen
    · cases htype

theorem denotesType (h : s.Sees g f) {file field package : String} {expr : TypeExpr}
    {type : FieldType} (hpackage : s.package = some package)
    (htype : s.fieldType file field expr = .ok type) :
    DenotesType g f expr (type.withPackage package) := by
  cases expr with
  | named name =>
    have hname : s.namedType file field name = .ok type := htype
    exact .named (h.denotes hpackage hname)
  | map key value =>
    obtain ⟨k, hk, hrest⟩ := bind_eq_ok.1 htype
    obtain ⟨v, hv, hmap⟩ := bind_eq_ok.1 hrest
    cases hmap
    exact .map (h.denotes hpackage hk) (h.denotes hpackage hv)

theorem messageStands (h : s.Sees g f) {d : MessageDecl} {m : Message}
    (hbuilt : MessageBuilt s f.id d m) : MessageStands g f d m := by
  obtain ⟨hdescribed, howner, package, hpackage, hfields⟩ := hbuilt
  refine ⟨hdescribed, howner, hfields.imp fun fieldDecl field hfield => ?_⟩
  obtain ⟨file, type, htype, heq⟩ := hfield.type
  exact ⟨hfield.described, hfield.number, hfield.cardinality,
    heq ▸ h.denotesType hpackage htype⟩

end Scope.Sees

/-! ## 2. The files of a graph -/

/-- The file `f` of the graph holds what `d` declares. -/
structure SchemaFile.Reflects (g : Graph) (f : SchemaFile) (d : Document) : Prop where
  messages : List.Forall₂ (MessageStands g f) d.messages f.messages
  enums : f.enums = d.enums.map (Scope.enumeration f.id)
  nodup : f.names.Nodup

namespace ReferencesLemmas

/-- The scope that a file is filled in shows it as it will be, also in a larger graph. -/
theorem sees_of_build {root : Path} {g g' : Graph} {l : Location} {d : Document}
    {imported : List FileId} {f : SchemaFile} (hbuild : Catalog.build root g l d imported = .ok f)
    (hlt : ∀ id ∈ f.dependencies, id < g.nextId) (hgrows : g.files <+: g'.files)
    (hindexed : g'.IsIndexed) :
    (f.scope g d).Sees g' f ∧ List.Forall₂ (MessageBuilt (f.scope g d) f.id) d.messages f.messages ∧
      f.enums = d.enums.map (Scope.enumeration f.id) ∧ d.names.Nodup := by
  obtain ⟨hplace, hpackage, hnames⟩ := SchemaFile.fill_effect hbuild
  obtain ⟨hmessages, henums⟩ := SchemaFile.fill_contents hbuild ⟨rfl, rfl, rfl⟩
  obtain ⟨hnodup, -, -⟩ := (SchemaFile.fill_isOk_iff ⟨rfl, rfl, rfl⟩).1 ⟨f, hbuild⟩
  have hid : f.id = g.nextId := congrArg (·.1) hplace
  generalize hfull : d.headers.foldl SchemaFile.addHeader _ = f₀ at hpackage hmessages
  have hplace₀ : f₀.place = f.place := by
    rw [← hfull, addHeaders_place, hplace]
  have hscope : f₀.scope g d = f.scope g d := by
    rw [SchemaFile.scope, SchemaFile.scope, hpackage, show f₀.id = f.id from congrArg (·.1) hplace₀,
      show f₀.dependencies = f.dependencies from congrArg (·.2.2.2.2) hplace₀]
  rw [show (SchemaFile.empty g.nextId root _ _).id = f.id from hid.symm] at hmessages henums
  rw [hscope] at hmessages
  refine ⟨⟨hgrows, hindexed.mono hgrows, rfl, hlt, rfl, ?_, ?_⟩, hmessages, henums, hnodup⟩
  · exact fun name id => Scope.owns_of_own? rfl hmessages henums
  · intro name hown hmem
    have hdeclared : name ∈ d.names := by
      rcases (hnames name).1 hmem with hold | hdeclared
      · cases hold
      · exact hdeclared
    have hsome : ((f.scope g d).own? name).isSome := by
      rw [own?_isSome_iff, SchemaFile.scope, map_declared]
      exact hdeclared
    rw [hown] at hsome
    cases hsome

theorem names_eq {g : Graph} {f : SchemaFile} {d : Document}
    (hmessages : List.Forall₂ (MessageStands g f) d.messages f.messages)
    (henums : f.enums = d.enums.map (Scope.enumeration f.id)) : f.names = d.names := by
  have hnames : d.messages.map (·.name) = f.messages.map (·.name) := by
    refine List.forall₂_eq_eq_eq ▸ List.forall₂_map_left_iff.2 (List.forall₂_map_right_iff.2 ?_)
    exact hmessages.imp fun decl m hm => (congrArg Described.name hm.described).symm
  rw [SchemaFile.names, Document.names, ← hnames, henums, List.map_map]
  rfl

end ReferencesLemmas

theorem Grown.indexed {seen : List FileSystem} {root : Path} {g : Graph} (h : Grown seen root g) :
    g.IsIndexed := by
  intro i f hf
  obtain ⟨g', l, d, ⟨-, ⟨imported, hbuild⟩, -⟩, -, -⟩ := h.origin hf
  exact Catalog.build_indexed hbuild

/-- Each file of a grown graph holds what a document declares that was read at its place. -/
theorem Grown.contents {seen : List FileSystem} {root : Path} {g : Graph} (h : Grown seen root g)
    {i : FileId} {f : SchemaFile} (hf : g.file? i = some f) :
    ∃ l d, f.path = l.path ∧ (∃ fs ∈ seen, Holds fs l d) ∧ f.Reflects g d := by
  obtain ⟨g', l, d, ⟨hholds, ⟨imported, hbuild⟩, hlt⟩, hgrows, -⟩ := h.origin hf
  obtain ⟨hsees, hmessages, henums, hnodup⟩ := sees_of_build hbuild hlt hgrows h.indexed
  have hstands : List.Forall₂ (MessageStands g f) d.messages f.messages :=
    hmessages.imp fun decl m hm => hsees.messageStands hm
  refine ⟨l, d, Catalog.build_path hbuild, hholds, hstands, henums, ?_⟩
  rw [names_eq hstands henums]
  exact hnodup

/-! ## 3. Targets -/

/-- The reference is to a definition of file `i` or of one in `dependencies`, and the definition has
the recorded name. -/
def Graph.Leads (g : Graph) (i : FileId) (dependencies : List FileId) (name : String)
    (id : DefinitionId) : Prop :=
  (id.file = i ∨ id.file ∈ dependencies) ∧ ∃ d, g.definition? id = some d ∧ d.name = name

namespace ReferencesLemmas

variable {seen : List FileSystem} {root : Path} {g : Graph} {i : FileId} {f : SchemaFile}

theorem definition?_of_owns (hf : g.file? i = some f) (hid : f.id = i) {name : String}
    {id : DefinitionId} (h : f.Owns name id) :
    id.file = i ∧ ∃ d, g.definition? id = some d ∧ d.name = name := by
  obtain ⟨hfile, d, hd, hname⟩ := h
  have hfile' : id.file = i := hfile.trans hid
  refine ⟨hfile', d, ?_, hname⟩
  rw [Graph.definition?, hfile', hf]
  exact hd

theorem leads_of_first (hg : Grown seen root g) {P : SchemaFile → Prop} {ids : List FileId}
    {name : String} {id : DefinitionId} (h : g.First ids P name id) : g.Leads i ids name id := by
  obtain ⟨before, j, after, f, rfl, hf, -, howns, -⟩ := h
  obtain ⟨hfile, hd⟩ := definition?_of_owns hf (hg.id_eq hf) howns
  refine ⟨.inr ?_, hd⟩
  rw [hfile]
  exact List.mem_append_right before List.mem_cons_self

end ReferencesLemmas

section Targets

variable {seen : List FileSystem} {root : Path} {g : Graph} {i : FileId} {f : SchemaFile}
  (hg : Grown seen root g) (hf : g.file? i = some f)

include hg hf

/-- Whatever rule has chosen it, the definition at a chosen address has the name. -/
theorem Chosen.leads {package : Option String} {short : String} {id : DefinitionId}
    (h : Chosen g f package short id) : g.Leads i f.dependencies short id := by
  cases h with
  | qualifiedOwn _ howns =>
    obtain ⟨hfile, hd⟩ := definition?_of_owns hf (hg.id_eq hf) howns
    exact ⟨.inl hfile, hd⟩
  | qualifiedOther _ hfirst => exact leads_of_first hg hfirst
  | own howns =>
    obtain ⟨hfile, hd⟩ := definition?_of_owns hf (hg.id_eq hf) howns
    exact ⟨.inl hfile, hd⟩
  | samePackage _ hfirst => exact leads_of_first hg hfirst
  | anyPackage _ _ hfirst => exact leads_of_first hg hfirst

theorem Denotes.leads {name : String} {type : FieldType} (h : Denotes g f name type) :
    ∀ r ∈ type.references, g.Leads i f.dependencies r.1 r.2 := by
  intro r hr
  cases h with
  | base _ => cases hr
  | reference _ _ _ hchosen =>
    obtain rfl := List.mem_singleton.1 hr
    exact hchosen.leads hg hf

theorem DenotesType.leads {expr : TypeExpr} {type : FieldType} (h : DenotesType g f expr type) :
    ∀ r ∈ type.references, g.Leads i f.dependencies r.1 r.2 := by
  intro r hr
  cases h with
  | named hname => exact hname.leads hg hf r hr
  | map hkey hvalue =>
    rcases List.mem_append.1 hr with hr | hr
    · exact hkey.leads hg hf r hr
    · exact hvalue.leads hg hf r hr

end Targets

/-! ## 4. Types in target languages -/

namespace ReferencesLemmas

variable {seen : List FileSystem} {root : Path} {g : Graph}

theorem exists_right_of_forall₂ {α β : Type} {R : α → β → Prop} {items : List α} {bs : List β}
    (h : List.Forall₂ R items bs) {b : β} (hb : b ∈ bs) : ∃ a ∈ items, R a b := by
  induction h with
  | nil => cases hb
  | cons hR _ ih =>
    cases hb with
    | head => exact ⟨_, List.mem_cons_self, hR⟩
    | tail _ hb =>
      obtain ⟨a, ha, hR'⟩ := ih hb
      exact ⟨a, List.mem_cons_of_mem _ ha, hR'⟩

/-- The owner of a message is a file of the graph. -/
theorem owner_of_definition? (hg : Grown seen root g) {id : DefinitionId} {m : Message}
    (h : g.definition? id = some (.message m)) : ∃ f, g.file? m.owner = some f := by
  obtain ⟨f, hf, hm⟩ := Option.bind_eq_some_iff.1 h
  obtain ⟨l, d, -, -, hreflects⟩ := hg.contents hf
  have hmem : m ∈ f.messages := by
    cases hkind : id.kind with
    | message =>
      rw [hkind] at hm
      obtain ⟨m', hm', heq⟩ := Option.map_eq_some_iff.1 hm
      cases heq
      exact List.mem_of_getElem? hm'
    | enumeration =>
      rw [hkind] at hm
      obtain ⟨e, -, heq⟩ := Option.map_eq_some_iff.1 hm
      cases heq
  obtain ⟨decl, -, hstands⟩ := exists_right_of_forall₂ hreflects.messages hmem
  refine ⟨f, ?_⟩
  rw [hstands.owner, hg.id_eq hf]
  exact hf

theorem target_isOk (hg : Grown seen root g) (v : Vocabulary) {id : DefinitionId} {d : Definition}
    (h : g.definition? id = some d) : ∃ name, v.target g id = .ok name := by
  rw [Vocabulary.target, h]
  cases d with
  | enumeration e => exact ⟨none, rfl⟩
  | message m =>
    obtain ⟨f, hf⟩ := owner_of_definition? hg h
    refine ⟨some (v.messageName f m), ?_⟩
    simp only [hf]

section Denoted

variable {i : FileId} {f : SchemaFile} (hg : Grown seen root g) (hf : g.file? i = some f)
  (v : Vocabulary) (field : String)

include hg hf

/-- A type name never denotes a map, so it can be an element. -/
theorem element_isOk {name : String} {type : FieldType} (h : Denotes g f name type) :
    ∃ item, v.element g field type = .ok item := by
  cases h with
  | base _ => exact ⟨_, rfl⟩
  | reference _ _ _ hchosen =>
    obtain ⟨-, d, hd, -⟩ := hchosen.leads hg hf
    obtain ⟨target, htarget⟩ := target_isOk hg v hd
    rw [Vocabulary.element, htarget]
    cases target with
    | none => exact ⟨_, rfl⟩
    | some name => exact ⟨_, rfl⟩

theorem single_isOk {expr : TypeExpr} {type : FieldType} (h : DenotesType g f expr type) :
    ∃ rendered, v.single g field type = .ok rendered := by
  cases h with
  | named hname =>
    cases hname with
    | base _ => exact ⟨_, rfl⟩
    | reference _ _ _ hchosen =>
      obtain ⟨-, d, hd, -⟩ := hchosen.leads hg hf
      obtain ⟨target, htarget⟩ := target_isOk hg v hd
      rw [Vocabulary.single, htarget]
      cases target with
      | none => exact ⟨_, rfl⟩
      | some name => exact ⟨_, rfl⟩
  | map hkey hvalue =>
    obtain ⟨k, hk⟩ := element_isOk hg hf v field hkey
    obtain ⟨w, hw⟩ := element_isOk hg hf v field hvalue
    exact ⟨_, bind_eq_ok.2 ⟨k, hk, bind_eq_ok.2 ⟨w, hw, rfl⟩⟩⟩

end Denoted

/-- A field that was read holds no list of maps, so it has a type in every language. -/
theorem fieldType_isOk {i : FileId} {f : SchemaFile} (hg : Grown seen root g)
    (hf : g.file? i = some f) (v : Vocabulary) {d : FieldDecl} {x : Field}
    (h : FieldStands g f d x) (hd : d.Printable) : ∃ rendered, v.fieldType g x = .ok rendered := by
  rw [Vocabulary.fieldType, h.cardinality]
  cases hcardinality : d.cardinality with
  | singular => exact single_isOk hg hf v x.name h.type
  | repeated =>
    have htype := h.type
    cases hexpr : d.type with
    | named name =>
      rw [hexpr] at htype
      cases htype with
      | named hname =>
        obtain ⟨item, hitem⟩ := element_isOk hg hf v x.name hname
        exact ⟨_, bind_eq_ok.2 ⟨item, hitem, rfl⟩⟩
    | map key value =>
      have hprintable := hd.type
      rw [hexpr, hcardinality] at hprintable
      exact absurd hprintable.2.2 (by decide)

theorem printable_of_holds {fs : FileSystem} {l : Location} {d : Document} (h : Holds fs l d) :
    d.Printable := by
  obtain ⟨contents, text, -, -, hd⟩ := h
  exact Document.printable_of_ofText hd

end ReferencesLemmas

/-- The references of a field lead to definitions of their names, and the field has a type. -/
theorem Grown.fieldTypes {seen : List FileSystem} {root : Path} {g : Graph} (hg : Grown seen root g)
    {i : FileId} {f : SchemaFile} (hf : g.file? i = some f) {m : Message} (hm : m ∈ f.messages)
    {x : Field} (hx : x ∈ m.fields) :
    (∀ r ∈ x.type.references, g.Leads i f.dependencies r.1 r.2) ∧
      ∀ v : Vocabulary, ∃ rendered, v.fieldType g x = .ok rendered := by
  obtain ⟨l, d, -, ⟨fs, -, hd⟩, hreflects⟩ := hg.contents hf
  obtain ⟨decl, hdecl, hmessage⟩ := exists_right_of_forall₂ hreflects.messages hm
  obtain ⟨fieldDecl, hfieldDecl, hfield⟩ := exists_right_of_forall₂ hmessage.fields hx
  refine ⟨hfield.type.leads hg hf, fun v => ?_⟩
  have hprintable := ((printable_of_holds hd).messages decl hdecl).members fieldDecl hfieldDecl
  exact fieldType_isOk hg hf v hfield hprintable

/-- In every catalog that loads lead to, each message field of each file means what a document
declares that was read at the place of the file. Its references lead to definitions of the recorded
names, in the file itself or in files that it depends on, and the field has a type in every target
language. -/
theorem references_valid {fs : FileSystem} {dir : Path} {start c : Catalog}
    {seen : List FileSystem} (hstart : Catalog.ofRoot fs dir = .ok start)
    (hreached : ReachedOver start seen c) {i : FileId} {f : SchemaFile}
    (hf : c.graph.file? i = some f) :
    (∃ l d, f.path = l.path ∧ (∃ fs ∈ seen, Holds fs l d) ∧ f.Reflects c.graph d) ∧
      ∀ m ∈ f.messages, ∀ x ∈ m.fields,
        (∀ r ∈ x.type.references, c.graph.Leads i f.dependencies r.1 r.2) ∧
          ∀ v : Vocabulary, ∃ rendered, v.fieldType c.graph x = .ok rendered := by
  obtain ⟨hc, -⟩ := Catalog.grown_of_ofRoot hstart hreached
  exact ⟨hc.graph.contents hf, fun m hm x hx => hc.graph.fieldTypes hf hm hx⟩

/-! ### References across a change of the files -/

/-- Two schema files, where `a` imports `b`. Both define `M`, and `a` uses it before. -/
def sharedNames : FileSystem :=
  ⟨.directory .full [("s", .directory .full [
    ("a", .text ("import \"b\"; package q; message A \x7b M m = 1; N n = 2; " ++
      "map<string, p.M> t = 3; \x7d message M \x7b \x7d")),
    ("b", .text "package p; message M \x7b \x7d enum N \x7b \x7d")])], []⟩

/-- The same files when `b` has become empty. -/
def lostNames : FileSystem :=
  ⟨.directory .full [("s", .directory .full [
    ("a", .text ("import \"b\"; package q; message A \x7b M m = 1; N n = 2; " ++
      "map<string, p.M> t = 3; \x7d message M \x7b \x7d")),
    ("b", .text "")])], []⟩

/-- The file `b` as it was. -/
def namedFile : SchemaFile :=
  { SchemaFile.empty 0 ⟨"/s"⟩ ⟨"b"⟩ ⟨"/s/b"⟩ with
    headers := [⟨.package, "package", "p"⟩]
    messages := [⟨⟨"M", none, false⟩, 0, []⟩]
    enums := [⟨⟨"N", none, false⟩, 0, []⟩]
    definitions := ⟨[("M", ⟨0, .message, 0⟩), ("N", ⟨0, .enumeration, 0⟩)], by decide⟩ }

/-- The file `a`. The file's own `M` is preferred, `N` is in no other file than `b`, and `p.M` says
where it is. -/
def namingFile : SchemaFile :=
  { SchemaFile.empty 1 ⟨"/s"⟩ ⟨"a"⟩ ⟨"/s/a"⟩ with
    headers := [⟨.package, "package", "q"⟩]
    imports := [⟨.importing, "b", "b"⟩]
    messages := [
      ⟨⟨"A", none, false⟩, 1, [
        ⟨⟨"m", none, false⟩, 1, 0, .reference (some "q") "M" ⟨1, .message, 1⟩, .singular⟩,
        ⟨⟨"n", none, false⟩, 2, 1, .reference (some "q") "N" ⟨0, .enumeration, 0⟩, .singular⟩,
        ⟨⟨"t", none, false⟩, 3, 2,
          .map (.base .string) (.reference (some "p") "M" ⟨0, .message, 0⟩), .singular⟩]⟩,
      ⟨⟨"M", none, false⟩, 1, []⟩]
    definitions := ⟨[("A", ⟨1, .message, 0⟩), ("M", ⟨1, .message, 1⟩)], by decide⟩
    dependencies := [0] }

/-- The catalog with `b` loaded. -/
def namedCatalog : Catalog :=
  ⟨⟨"/s"⟩, ⟨[namedFile]⟩, [(⟨"/s/b"⟩, 0)], []⟩

/-- The catalog with both files loaded. -/
def namingCatalog : Catalog :=
  ⟨⟨"/s"⟩, ⟨[namedFile, namingFile]⟩, [(⟨"/s/a"⟩, 1), (⟨"/s/b"⟩, 0)], []⟩

/-- The file `a` is loaded when `b` is empty already, yet its references are to what `b` held. -/
theorem namingCatalog_reached :
    ReachedOver (nothingLoaded []) [lostNames, sharedNames] namingCatalog := by
  have hnamed : Catalog.loadWithin sharedNames 1 ⟨"b"⟩ (nothingLoaded []) =
      some (.ok 0, namedCatalog) := by decide +kernel
  have hnaming : Catalog.loadWithin lostNames 2 ⟨"a"⟩ namedCatalog =
      some (.ok 1, namingCatalog) := by decide +kernel
  have hreached : ReachedOver (nothingLoaded []) [lostNames, sharedNames] _ :=
    .load lostNames ⟨"a"⟩ (.load sharedNames ⟨"b"⟩ .start)
  rwa [Catalog.load_of_within hnamed, Catalog.load_of_within hnaming] at hreached

theorem references_valid_after_change :
    Catalog.ofRoot sharedNames ⟨"/s"⟩ = .ok (nothingLoaded []) ∧
    ReachedOver (nothingLoaded []) [lostNames, sharedNames] namingCatalog ∧
    namingCatalog.graph.file? 1 = some namingFile ∧
    (∃ l d, namingFile.path = l.path ∧ (∃ fs ∈ [lostNames, sharedNames], Holds fs l d) ∧
      namingFile.Reflects namingCatalog.graph d) ∧
    ∀ m ∈ namingFile.messages, ∀ x ∈ m.fields,
      (∀ r ∈ x.type.references, namingCatalog.graph.Leads 1 namingFile.dependencies r.1 r.2) ∧
        ∀ v : Vocabulary, ∃ rendered, v.fieldType namingCatalog.graph x = .ok rendered := by
  have hroot : Catalog.ofRoot sharedNames ⟨"/s"⟩ = .ok (nothingLoaded []) := by decide +kernel
  have hfile : namingCatalog.graph.file? 1 = some namingFile := rfl
  exact ⟨hroot, namingCatalog_reached, hfile,
    references_valid hroot namingCatalog_reached hfile⟩

end SchemaGen
