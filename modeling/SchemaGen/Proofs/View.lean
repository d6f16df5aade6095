import SchemaGen.Proofs.Filling
import Mathlib.Data.List.Forall2

/-!
# Files with paths in place of numbers

The numbers in a file depend on what was loaded before it. Its view has the path of a file wherever
the file itself has a number, so two files can be compared across graphs. This module shows that
filling a file is blind to numbers: from files that look alike, in scopes that look alike, it ends
in the same error or in files that look alike.

Results:
1. `Scope.Alike.lookup?`: lookups in scopes that look alike find the same definitions.
2. `fill_view`: filling depends on the views only.
-/

namespace SchemaGen

/-! ## Views -/

/-- The type of a field, with the target of a reference by path, kind and place. -/
inductive TypeView where
  | base (base : BaseType)
  | reference (package : Option String) (name : String) (target : Path × DefinitionKind × Nat)
  | map (key value : TypeView)

/-- A field without numbers of files. -/
structure FieldView extends Described where
  number : Int
  index : Nat
  type : TypeView
  cardinality : Cardinality

/-- A message without numbers of files. -/
structure MessageView extends Described where
  owner : Path
  fields : List FieldView

/-- An enumeration without numbers of files. -/
structure EnumerationView extends Described where
  owner : Path
  constants : List Constant

/-- A file without numbers of files. -/
structure FileView where
  self : Path
  rootDir : Path
  file : Path
  path : Path
  headers : List Header
  imports : List Header
  options : List Header
  messages : List MessageView
  enums : List EnumerationView
  definitions : List (String × Path × DefinitionKind × Nat)
  dependencies : List Path

section View

-- The paths that numbers stand for.
variable (ν : FileId → Path)

def DefinitionId.view (id : DefinitionId) : Path × DefinitionKind × Nat :=
  (ν id.file, id.kind, id.index)

def FieldType.view : FieldType → TypeView
  | .base b => .base b
  | .reference package name target => .reference package name (target.view ν)
  | .map key value => .map key.view value.view

def Field.view (f : Field) : FieldView :=
  { f with type := f.type.view ν }

def Message.view (m : Message) : MessageView :=
  { m with owner := ν m.owner, fields := m.fields.map (·.view ν) }

def Enumeration.view (e : Enumeration) : EnumerationView :=
  { e with owner := ν e.owner }

def SchemaFile.view (f : SchemaFile) : FileView where
  self := ν f.id
  rootDir := f.rootDir
  file := f.file
  path := f.path
  headers := f.headers
  imports := f.imports
  options := f.options
  messages := f.messages.map (·.view ν)
  enums := f.enums.map (·.view ν)
  definitions := f.definitions.entries.map fun e => (e.1, e.2.view ν)
  dependencies := f.dependencies.map ν

end View

/-- Two scopes that look alike once numbers are replaced by paths. -/
structure Scope.Alike (ν ν' : FileId → Path) (s s' : Scope) : Prop where
  package : s.package = s'.package
  own : s.own.map (fun e => (e.1, e.2.view ν)) = s'.own.map fun e => (e.1, e.2.view ν')
  dependencies : List.Forall₂ (fun i j => ∃ f f', s.graph.file? i = some f ∧
    s'.graph.file? j = some f' ∧ f.view ν = f'.view ν') s.dependencies s'.dependencies

/-! ## Results that look alike -/

namespace ViewLemmas

section Except

variable {ε α α' β β' γ δ : Type} {v : α → γ} {v' : α' → γ}

theorem map_bind_congr {x : Except ε α} {x' : Except ε α'} {k : α → Except ε β}
    {k' : α' → Except ε β'} {w : β → δ} {w' : β' → δ} (h : x.map v = x'.map v')
    (hk : ∀ a a', v a = v' a' → (k a).map w = (k' a').map w') :
    (x >>= k).map w = (x' >>= k').map w' := by
  cases x with
  | error e =>
    cases x' with
    | error e' =>
      obtain rfl := Except.error.inj h
      rfl
    | ok a' => cases h
  | ok a =>
    cases x' with
    | error e' => cases h
    | ok a' => exact hk a a' (Except.ok.inj h)

theorem map_mapM_congr {ι : Type} {k : ι → Except ε α} {k' : ι → Except ε α'} (items : List ι)
    (hk : ∀ i, (k i).map v = (k' i).map v') :
    (items.mapM k).map (·.map v) = (items.mapM k').map (·.map v') := by
  induction items with
  | nil => rfl
  | cons i rest ih =>
    rw [List.mapM_cons, List.mapM_cons]
    refine map_bind_congr (hk i) fun a a' ha => map_bind_congr ih fun as as' has => ?_
    exact congrArg Except.ok (congrArg₂ List.cons ha has)

theorem map_foldlM_congr {ι : Type} {step : α → ι → Except ε α} {step' : α' → ι → Except ε α'}
    (items : List ι) (hstep : ∀ a a' i, v a = v' a' → (step a i).map v = (step' a' i).map v')
    {a : α} {a' : α'} (h : v a = v' a') :
    (items.foldlM step a).map v = (items.foldlM step' a').map v' := by
  induction items generalizing a a' with
  | nil => exact congrArg Except.ok h
  | cons i rest ih =>
    rw [List.foldlM_cons, List.foldlM_cons]
    exact map_bind_congr (hstep a a' i h) fun b b' hb => ih hb

end Except

theorem lookup_map {α β : Type} (v : α → β) (entries : List (String × α)) (name : String) :
    (entries.lookup name).map v = (entries.map fun e => (e.1, v e.2)).lookup name := by
  induction entries with
  | nil => rfl
  | cons e rest ih =>
    obtain ⟨key, a⟩ := e
    rw [List.map_cons, List.lookup_cons, List.lookup_cons]
    cases name == key with
    | true => rfl
    | false => exact ih

theorem map_put {α β : Type} (v : α → β) (name : String) (a : α) (entries : List (String × α)) :
    (NameMap.put name a entries).map (fun e => (e.1, v e.2)) =
      NameMap.put name (v a) (entries.map fun e => (e.1, v e.2)) := by
  induction entries with
  | nil => rfl
  | cons e rest ih =>
    rw [List.map_cons, NameMap.put, NameMap.put]
    split
    · rfl
    split
    · rw [List.map_cons, ih]
    · rfl

theorem map_congr_of_map_eq {α α' γ δ : Type} {v : α → γ} {v' : α' → γ} {w : α → δ} {w' : α' → δ}
    {items : List α} {items' : List α'} (h : items.map v = items'.map v')
    (hw : ∀ a a', v a = v' a' → w a = w' a') : items.map w = items'.map w' := by
  induction items generalizing items' with
  | nil =>
    cases items' with
    | nil => rfl
    | cons => cases h
  | cons a rest ih =>
    cases items' with
    | nil => cases h
    | cons a' rest' =>
      obtain ⟨hhead, htail⟩ := List.cons.inj h
      exact congrArg₂ List.cons (hw a a' hhead) (ih htail)

/-! ### Files that look alike -/

variable {ν ν' : FileId → Path} {f f' : SchemaFile} (h : f.view ν = f'.view ν')

include h

theorem package?_of_view : f.package? = f'.package? :=
  FillingLemmas.package?_congr (congrArg FileView.headers h)

/-- Files that look alike have their definitions at the same addresses. -/
theorem definitionId?_of_view (name : String) :
    (f.definitionId? name).map (·.view ν) = (f'.definitionId? name).map (·.view ν') := by
  refine (lookup_map _ _ _).trans (Eq.trans ?_ (lookup_map _ _ _).symm)
  exact congrArg (List.lookup name) (congrArg FileView.definitions h)

theorem packageFor_of_view (name : String) : f.packageFor name = f'.packageFor name := by
  have htaken : (f.definitionId? name).isSome = (f'.definitionId? name).isSome := by
    have hmap := congrArg Option.isSome (definitionId?_of_view h name)
    rwa [Option.isSome_map, Option.isSome_map] at hmap
  have hfile : f.file = f'.file := congrArg FileView.file h
  rw [SchemaFile.packageFor, SchemaFile.packageFor, htaken, package?_of_view h, hfile]

end ViewLemmas

open ViewLemmas

/-! ## 1. Lookups -/

namespace Scope.Alike

variable {ν ν' : FileId → Path} {s s' : Scope}

variable (h : s.Alike ν ν' s')

include h

theorem own? (name : String) : (s.own? name).map (·.view ν) = (s'.own? name).map (·.view ν') := by
  rw [Scope.own?, Scope.own?, lookup_map, lookup_map, List.map_reverse, List.map_reverse, h.own]

theorem imported? {p p' : SchemaFile → Bool}
    (hp : ∀ f f', f.view ν = f'.view ν' → p f = p' f') (name : String) :
    (s.imported? p name).map (·.view ν) = (s'.imported? p' name).map (·.view ν') := by
  unfold Scope.imported?
  -- The two searches go through their files side by side and stop at the same place.
  have hdependencies := h.dependencies
  generalize s.dependencies = is at hdependencies ⊢
  generalize s'.dependencies = js at hdependencies ⊢
  induction hdependencies with
  | nil => rfl
  | cons hhead _ ih =>
    obtain ⟨f, f', hf, hf', hview⟩ := hhead
    rw [List.findSome?_cons, List.findSome?_cons, hf, hf', Option.bind_some, Option.bind_some,
      hp f f' hview]
    have hfound := definitionId?_of_view hview name
    cases p' f' with
    | false => exact ih
    | true =>
      rw [if_pos rfl, if_pos rfl]
      cases hdefinition : f.definitionId? name <;> cases hdefinition' : f'.definitionId? name <;>
        simp_all

/-- What a name means does not depend on numbers. -/
theorem lookup? (name : String) :
    (s.lookup? name).map (fun r => (r.1, r.2.view ν)) =
      (s'.lookup? name).map fun r => (r.1, r.2.view ν') := by
  have hqualify (μ : FileId → Path) (found : Option DefinitionId) (package : Option String) :
      (found.map fun id => (package, id)).map (fun r => (r.1, r.2.view μ)) =
        (found.map (·.view μ)).map fun target => (package, target) := by
    cases found <;> rfl
  unfold Scope.lookup?
  split
  · next qualifier short _ =>
    have hown : (if s.package = some qualifier then s.own? short else none).map (·.view ν) =
        (if s'.package = some qualifier then s'.own? short else none).map (·.view ν') := by
      rw [h.package]
      split
      · exact h.own? short
      · rfl
    have himported :
        (s.imported? (·.package? = some qualifier) short).map (·.view ν) =
          (s'.imported? (·.package? = some qualifier) short).map (·.view ν') :=
      h.imported? (fun f f' hview => by rw [package?_of_view hview]) short
    simp only [hqualify, Option.map_or, hown, himported]
  · have hsame :
        (s.imported? (·.package? = s.package) (Scope.bareName name)).map (·.view ν) =
          (s'.imported? (·.package? = s'.package) (Scope.bareName name)).map (·.view ν') :=
      h.imported? (fun f f' hview => by rw [package?_of_view hview, h.package]) _
    have hany :
        (s.imported? (fun _ => true) (Scope.bareName name)).map (·.view ν) =
          (s'.imported? (fun _ => true) (Scope.bareName name)).map (·.view ν') :=
      h.imported? (fun _ _ _ => rfl) _
    simp only [hqualify, Option.map_or, h.own?, hsame, hany]

end Scope.Alike

/-! ## 2. Filling -/

namespace ViewLemmas

variable {ν ν' : FileId → Path} {s s' : Scope}

theorem namedType_view (h : s.Alike ν ν' s') (file field name : String) :
    (s.namedType file field name).map (·.view ν) =
      (s'.namedType file field name).map (·.view ν') := by
  have hlookup := h.lookup? name
  unfold Scope.namedType
  split
  · rfl
  · cases hfound : s.lookup? name with
    | none =>
      rw [hfound, Option.map_none] at hlookup
      rw [Option.map_eq_none_iff.1 hlookup.symm]
      rfl
    | some found =>
      rw [hfound, Option.map_some] at hlookup
      obtain ⟨found', hfound', heq⟩ := Option.map_eq_some_iff.1 hlookup.symm
      obtain ⟨hpackage, htarget⟩ := Prod.mk.inj heq
      rw [hfound']
      simp only [Except.map, FieldType.view, hpackage, htarget]

theorem fieldType_view (h : s.Alike ν ν' s') (file field : String) (type : TypeExpr) :
    (s.fieldType file field type).map (·.view ν) =
      (s'.fieldType file field type).map (·.view ν') := by
  cases type with
  | named name => exact namedType_view h file field name
  | map key value =>
    refine map_bind_congr (namedType_view h file field key) fun k k' hk => ?_
    refine map_bind_congr (namedType_view h file field value) fun v v' hv => ?_
    exact congrArg Except.ok (congrArg₂ TypeView.map hk hv)

theorem field_view (h : s.Alike ν ν' s') (file : String) (d : FieldDecl × Nat) :
    (s.field file d).map (·.view ν) = (s'.field file d).map (·.view ν') := by
  refine map_bind_congr (fieldType_view h file d.1.name d.1.type) fun t t' ht => ?_
  exact congrArg Except.ok (congrArg (fun type => (⟨d.1.toDescribed, d.1.number, d.2, type,
    d.1.cardinality⟩ : FieldView)) ht)

variable {id' : FileId}

theorem message_view (h : s.Alike ν ν' s') (file : String) {id : FileId} (hid : ν id = ν' id')
    (d : MessageDecl) :
    (s.message file id d).map (·.view ν) = (s'.message file id' d).map (·.view ν') := by
  refine map_bind_congr (map_mapM_congr d.members.zipIdx (field_view h file)) fun fs fs' hfs => ?_
  exact congrArg Except.ok (congrArg₂ (fun owner fields =>
    (⟨d.toDescribed, owner, fields⟩ : MessageView)) hid hfs)

/-- Types that look alike are of the same form. -/
@[elab_as_elim]
theorem alike_of_view {motive : FieldType → FieldType → Prop}
    (base : ∀ b, motive (.base b) (.base b))
    (reference : ∀ package name {id id'}, id.view ν = id'.view ν' →
      motive (.reference package name id) (.reference package name id'))
    (map : ∀ {key key' value value'}, key.view ν = key'.view ν' → value.view ν = value'.view ν' →
      motive key key' → motive value value' → motive (.map key value) (.map key' value'))
    {t t' : FieldType} (h : t.view ν = t'.view ν') : motive t t' := by
  induction t generalizing t' with
  | base b =>
    cases t' <;> cases h
    exact base b
  | reference package name id =>
    cases t' with
    | reference =>
      obtain ⟨rfl, rfl, hid⟩ := TypeView.reference.inj h
      exact reference package name hid
    | _ => cases h
  | map key value ihkey ihvalue =>
    cases t' with
    | map =>
      obtain ⟨hkey, hvalue⟩ := TypeView.map.inj h
      exact map hkey hvalue (ihkey hkey) (ihvalue hvalue)
    | _ => cases h

theorem withPackage_view (package : String) {t t' : FieldType} (h : t.view ν = t'.view ν') :
    (t.withPackage package).view ν = (t'.withPackage package).view ν' := by
  refine alike_of_view (fun _ => rfl) (fun _ _ _ _ hid => ?_) (fun _ _ hkey hvalue => ?_) h
  · simp only [FieldType.withPackage, FieldType.view, hid]
  · simp only [FieldType.withPackage, FieldType.view, hkey, hvalue]

theorem packaged_view (package : String) {field field' : Field}
    (h : field.view ν = field'.view ν') :
    Field.view ν { field with type := field.type.withPackage package } =
      Field.view ν' { field' with type := field'.type.withPackage package } := by
  obtain ⟨hdescribed, hnumber, hindex, htype, hcardinality⟩ := FieldView.mk.inj h
  simp only [Field.view, hdescribed, hnumber, hindex, hcardinality, withPackage_view package htype]

theorem registered_view (package : String) {m m' : Message} {id : FileId}
    (h : m.view ν = m'.view ν') (hid : ν id = ν' id') :
    (m.registered id package).view ν = (m'.registered id' package).view ν' := by
  obtain ⟨hdescribed, -, hfields⟩ := MessageView.mk.inj h
  have hpackaged : (m.registered id package).fields.map (·.view ν) =
      (m'.registered id' package).fields.map (·.view ν') := by
    rw [Message.registered, Message.registered, List.map_map, List.map_map]
    exact map_congr_of_map_eq hfields fun _ _ => packaged_view package
  calc (m.registered id package).view ν
    _ = ⟨m.toDescribed, ν id, (m.registered id package).fields.map (·.view ν)⟩ := rfl
    _ = (m'.registered id' package).view ν' := by
      rw [hdescribed, hid, hpackaged]
      rfl

theorem enumeration_view {id : FileId} (hid : ν id = ν' id') (d : EnumDecl) :
    (Scope.enumeration id d).view ν = (Scope.enumeration id' d).view ν' := by
  simp only [Enumeration.view, Scope.enumeration, hid]

/-! ### Registrations -/

theorem put_message_view (μ : FileId → Path) (f : SchemaFile) (m : Message) :
    (f.put (.message m)).view μ =
      let v := f.view μ
      { v with
        messages := v.messages ++ [m.view μ]
        definitions := NameMap.put m.name (v.self, .message, v.messages.length) v.definitions } := by
  simp only [SchemaFile.view, SchemaFile.put, SchemaFile.nextAddress, NameMap.insert,
    map_put (DefinitionId.view μ), List.map_append, List.map_cons, List.map_nil, List.length_map]
  rfl

theorem put_enumeration_view (μ : FileId → Path) (f : SchemaFile) (e : Enumeration) :
    (f.put (.enumeration e)).view μ =
      let v := f.view μ
      { v with
        enums := v.enums ++ [e.view μ]
        definitions := NameMap.put e.name (v.self, .enumeration, v.enums.length) v.definitions } := by
  simp only [SchemaFile.view, SchemaFile.put, SchemaFile.nextAddress, NameMap.insert,
    map_put (DefinitionId.view μ), List.map_append, List.map_cons, List.map_nil, List.length_map]
  rfl

variable {f f' : SchemaFile}

/-- Registering ends in the same error, or in the files with one definition more. -/
theorem declare_view (h : f.view ν = f'.view ν') {d d' : Definition} (hname : d.name = d'.name)
    (hput : ∀ package, (f.put (d.registered f.id package)).view ν =
      (f'.put (d'.registered f'.id package)).view ν') :
    (f.declare d).map (·.view ν) = (f'.declare d').map (·.view ν') := by
  have hsame : f.packageFor d.name = f'.packageFor d'.name := by
    rw [packageFor_of_view h, hname]
  unfold SchemaFile.declare
  cases hpackage : f'.packageFor d'.name with
  | error e =>
    rw [SchemaFile.register_error (hsame.trans hpackage), SchemaFile.register_error hpackage]
    rfl
  | ok package =>
    rw [SchemaFile.register_ok (hsame.trans hpackage), SchemaFile.register_ok hpackage]
    exact congrArg Except.ok (hput package)

theorem declareMessage_view (hs : s.Alike ν ν' s') (h : f.view ν = f'.view ν') (d : MessageDecl) :
    (SchemaFile.declareMessage s f d).map (·.view ν) =
      (SchemaFile.declareMessage s' f' d).map (·.view ν') := by
  have hfile : f.file = f'.file := congrArg FileView.file h
  have hself : ν f.id = ν' f'.id := congrArg FileView.self h
  rw [SchemaFile.declareMessage, SchemaFile.declareMessage, hfile]
  refine map_bind_congr (message_view hs f'.file.slashed hself d) fun m m' hm => ?_
  have hname : m.name = m'.name := congrArg (·.name) hm
  refine declare_view h hname fun package => ?_
  have hmessage := registered_view package hm hself
  rw [Definition.registered, Definition.registered, put_message_view, put_message_view, h, hmessage]
  rw [show (m.registered f.id package).name = (m'.registered f'.id package).name from hname]

theorem declareEnumeration_view (h : f.view ν = f'.view ν') (d : EnumDecl) :
    (f.declareEnumeration d).map (·.view ν) = (f'.declareEnumeration d).map (·.view ν') := by
  refine declare_view h rfl fun package => ?_
  have henum := enumeration_view (congrArg FileView.self h) d
  show (f.put (.enumeration (Scope.enumeration f.id d))).view ν =
    (f'.put (.enumeration (Scope.enumeration f'.id d))).view ν'
  rw [put_enumeration_view, put_enumeration_view, h, henum]
  rfl

theorem addHeader_view (h : f.view ν = f'.view ν') (header : Header) :
    (f.addHeader header).view ν = (f'.addHeader header).view ν' := by
  obtain ⟨hself, hrootDir, hfile, hpath, hheaders, himports, hoptions, hmessages, henums,
    hdefinitions, hdependencies⟩ := FileView.mk.inj h
  unfold SchemaFile.addHeader
  split <;> simp only [SchemaFile.view, *]

theorem addHeaders_view (h : f.view ν = f'.view ν') (headers : List Header) :
    (headers.foldl SchemaFile.addHeader f).view ν =
      (headers.foldl SchemaFile.addHeader f').view ν' := by
  induction headers generalizing f f' with
  | nil => exact h
  | cons header rest ih => exact ih (addHeader_view h header)

theorem declared_view {id : FileId} (hid : ν id = ν' id') (d : Document) :
    (Scope.declared id d).map (fun e => (e.1, e.2.view ν)) =
      (Scope.declared id' d).map fun e => (e.1, e.2.view ν') := by
  simp [Scope.declared, DefinitionId.view, Function.comp_def, hid]

end ViewLemmas

/-- From files that look alike, filling ends in the same error or in files that look alike. -/
theorem fill_view {ν ν' : FileId → Path} {f f' : SchemaFile} {g g' : Graph}
    (h : f.view ν = f'.view ν')
    (hdependencies : List.Forall₂ (fun i j => ∃ e e', g.file? i = some e ∧ g'.file? j = some e' ∧
      e.view ν = e'.view ν') f.dependencies f'.dependencies) (d : Document) :
    (f.fill g d).map (·.view ν) = (f'.fill g' d).map (·.view ν') := by
  have hheaders := addHeaders_view h d.headers
  have hkept (e : SchemaFile) : (d.headers.foldl SchemaFile.addHeader e).dependencies =
      e.dependencies :=
    congrArg (·.2.2.2.2) (FillingLemmas.addHeaders_place e d.headers)
  rw [← hkept f, ← hkept f'] at hdependencies
  have hscope : Scope.Alike ν ν' ((d.headers.foldl SchemaFile.addHeader f).scope g d)
      ((d.headers.foldl SchemaFile.addHeader f').scope g' d) :=
    ⟨package?_of_view hheaders, declared_view (congrArg FileView.self hheaders) d, hdependencies⟩
  have hmessages := map_foldlM_congr d.messages
    (fun _ _ m hm => declareMessage_view hscope hm m) hheaders
  refine map_bind_congr hmessages fun e e' he => ?_
  exact map_foldlM_congr d.enums (fun _ _ d hd => declareEnumeration_view hd d) he

end SchemaGen
