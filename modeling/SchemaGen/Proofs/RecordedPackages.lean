import SchemaGen.Proofs.References
import SchemaGen.Proofs.Registration

/-!
# The packages that references record

A reference records a package next to the name of its target. A name that is written with a package
records that one, and a bare name records the package of the file that it stands in. The target of a
bare name can lie in a file with another package, and then the recorded package is not the one of
the target. This takes a name that no file with the package of the referring one defines.

Results:
1. `Chosen.recorded`: the recorded package and the package of the target, for each way a target is
   chosen.
2. `recorded_packages`: this for every field of every catalog that loads lead to.
3. `recorded_package_astray`: a reference whose recorded package is not the one of its target.
-/

namespace SchemaGen

open ReferencesLemmas

/-! ## Definitions -/

/-- The address `id` is that of a definition called `short` in the file `owner`, which is the file
`f` itself or one that `f` depends on. -/
structure OwnedBy (g : Graph) (f : SchemaFile) (short : String) (id : DefinitionId)
    (owner : SchemaFile) : Prop where
  file : g.file? id.file = some owner
  owns : owner.Owns short id
  seen : id.file = f.id ∨ id.file ∈ f.dependencies

/-- How the type name `name` is recorded in a field of the file `f`. A reference records the package
of the file that owns its target: it was written with this package, or it is a bare name and the
owner has the package of `f`. Only a bare name that no file of this package defines, among those
that `f` sees, records the package of `f` for a target of another package. -/
inductive Recorded (g : Graph) (f : SchemaFile) (name : String) : FieldType → Prop
  | base {b : BaseType} (hbase : BaseType.ofName? name = some b) : Recorded g f name (.base b)
  | owners {short : String} {id : DefinitionId} {owner : SchemaFile}
      (howned : OwnedBy g f short id owner) (hpackage : owner.package?.isSome)
      (hspelled : Spelled name owner.package? short ∨
        Spelled name none short ∧ owner.package? = f.package?) :
      Recorded g f name (.reference owner.package? short id)
  | astray {short : String} {id : DefinitionId} {owner : SchemaFile}
      (howned : OwnedBy g f short id owner) (hpackage : f.package?.isSome)
      (hspelled : Spelled name none short) (hother : owner.package? ≠ f.package?)
      (hnot : short ∉ f.names)
      (hlacks : g.Lacks f.dependencies (·.package? = f.package?) short) :
      Recorded g f name (.reference f.package? short id)

/-- How a written type is recorded in a field of the file `f`. -/
inductive RecordedType (g : Graph) (f : SchemaFile) : TypeExpr → FieldType → Prop
  | named {name : String} {type : FieldType} (h : Recorded g f name type) :
      RecordedType g f (.named name) type
  | map {key value : String} {k v : FieldType} (hkey : Recorded g f key k)
      (hvalue : Recorded g f value v) : RecordedType g f (.map key value) (.map k v)

/-! ## 1. Chosen targets -/

theorem SchemaFile.Owns.mem_names {f : SchemaFile} {short : String} {id : DefinitionId}
    (h : f.Owns short id) : short ∈ f.names :=
  mem_names_iff.2 ⟨id, h⟩

section Chosen

variable {seen : List FileSystem} {root : Path} {g : Graph} {i : FileId} {f : SchemaFile}
  (hg : Grown seen root g) (hf : g.file? i = some f)

include hg

theorem OwnedBy.of_own (hf : g.file? i = some f) {short : String} {id : DefinitionId}
    (howns : f.Owns short id) : OwnedBy g f short id f where
  file := by rw [howns.1, hg.id_eq hf, hf]
  owns := howns
  seen := .inl howns.1

theorem OwnedBy.of_first {P : SchemaFile → Prop} {short : String} {id : DefinitionId}
    (h : g.First f.dependencies P short id) :
    ∃ owner, OwnedBy g f short id owner ∧ id.file ∈ f.dependencies ∧ P owner := by
  obtain ⟨before, j, after, owner, hsplit, howner, hP, howns, -⟩ := h
  have hfile : id.file = j := howns.1.trans (hg.id_eq howner)
  have hmem : id.file ∈ f.dependencies := by
    rw [hfile, hsplit]
    exact List.mem_append_right before List.mem_cons_self
  exact ⟨owner, ⟨hfile ▸ howner, howns, .inr hmem⟩, hmem, hP⟩

include hf

/-- Whatever rule has chosen the target, its package is the recorded one, except where files of
other packages are the only ones left. -/
theorem Chosen.recorded {name short own : String} {written : Option String} {id : DefinitionId}
    (h : Chosen g f written short id) (hspelled : Spelled name written short)
    (hown : f.package? = some own) :
    Recorded g f name (.reference (some (written.getD own)) short id) := by
  cases h with
  | @qualifiedOwn package _ _ hpackage howns =>
    show Recorded g f name (.reference (some package) short id)
    rw [← hpackage] at hspelled ⊢
    exact .owners (.of_own hg hf howns) (by simp [hown]) (.inl hspelled)
  | @qualifiedOther package _ _ _ hfirst =>
    obtain ⟨owner, howned, -, hpackage⟩ := OwnedBy.of_first hg hfirst
    show Recorded g f name (.reference (some package) short id)
    rw [← hpackage] at hspelled ⊢
    exact .owners howned (by simp [hpackage]) (.inl hspelled)
  | own howns =>
    show Recorded g f name (.reference (some own) short id)
    rw [← hown]
    exact .owners (.of_own hg hf howns) (by simp [hown]) (.inr ⟨hspelled, rfl⟩)
  | samePackage _ hfirst =>
    obtain ⟨owner, howned, -, hpackage⟩ := OwnedBy.of_first hg hfirst
    show Recorded g f name (.reference (some own) short id)
    rw [← hown, ← hpackage]
    exact .owners howned (by simp [hpackage, hown]) (.inr ⟨hspelled, hpackage⟩)
  | anyPackage hnot hlacks hfirst =>
    obtain ⟨owner, howned, hmem, -⟩ := OwnedBy.of_first hg hfirst
    have hother : owner.package? ≠ f.package? :=
      fun hsame => hlacks id.file hmem owner howned.file hsame howned.owns.mem_names
    show Recorded g f name (.reference (some own) short id)
    rw [← hown]
    exact .astray howned (by simp [hown]) hspelled hother hnot hlacks

theorem Denotes.recorded {name : String} {type : FieldType} (h : Denotes g f name type) :
    Recorded g f name type := by
  cases h with
  | base hbase => exact .base hbase
  | reference _ hspelled hown hchosen => exact hchosen.recorded hg hf hspelled hown

theorem DenotesType.recorded {expr : TypeExpr} {type : FieldType} (h : DenotesType g f expr type) :
    RecordedType g f expr type := by
  cases h with
  | named hname => exact .named (hname.recorded hg hf)
  | map hkey hvalue => exact .map (hkey.recorded hg hf) (hvalue.recorded hg hf)

end Chosen

/-! ## 2. Catalogs -/

/-- In every catalog that loads lead to, the references in the types of message fields, also inside
maps, record the packages of the files that own their targets, except for bare names that no file of
the referring file's package defines. The fields of a file are told from a document that was read at
its place, field by field in the order of their declarations. -/
theorem recorded_packages {fs : FileSystem} {dir : Path} {start c : Catalog}
    {seen : List FileSystem} (hstart : Catalog.ofRoot fs dir = .ok start)
    (hreached : ReachedOver start seen c) {i : FileId} {f : SchemaFile}
    (hf : c.graph.file? i = some f) :
    ∃ l d, f.path = l.path ∧ (∃ fs ∈ seen, Holds fs l d) ∧
      List.Forall₂ (fun declared m =>
          List.Forall₂ (fun written x => RecordedType c.graph f written.type x.type)
            declared.members m.fields)
        d.messages f.messages := by
  obtain ⟨hc, -⟩ := Catalog.grown_of_ofRoot hstart hreached
  obtain ⟨l, d, hpath, hholds, hreflects⟩ := hc.graph.contents hf
  refine ⟨l, d, hpath, hholds, hreflects.messages.imp fun declared m hm => ?_⟩
  exact hm.fields.imp fun written x hx => hx.type.recorded hc.graph hf

/-! ## 3. A reference to another package -/

/-- Of the two schema files, `b` defines `N` in the package `p`, and `a` with the package `q` uses
it by its bare name. -/
theorem namingCatalog_loaded : ReachedOver (nothingLoaded []) [sharedNames] namingCatalog := by
  have hload : Catalog.loadWithin sharedNames 3 ⟨"a"⟩ (nothingLoaded []) =
      some (.ok 1, namingCatalog) := by decide +kernel
  have hreached : ReachedOver (nothingLoaded []) [sharedNames] _ :=
    .load sharedNames ⟨"a"⟩ .start
  rwa [Catalog.load_of_within hload] at hreached

theorem recorded_packages_namingCatalog :
    Catalog.ofRoot sharedNames ⟨"/s"⟩ = .ok (nothingLoaded []) ∧
    ReachedOver (nothingLoaded []) [sharedNames] namingCatalog ∧
    namingCatalog.graph.file? 1 = some namingFile ∧
    ∃ l d, namingFile.path = l.path ∧ (∃ fs ∈ [sharedNames], Holds fs l d) ∧
      List.Forall₂ (fun declared m =>
          List.Forall₂ (fun written x =>
              RecordedType namingCatalog.graph namingFile written.type x.type)
            declared.members m.fields)
        d.messages namingFile.messages := by
  have hroot : Catalog.ofRoot sharedNames ⟨"/s"⟩ = .ok (nothingLoaded []) := by decide +kernel
  have hfile : namingCatalog.graph.file? 1 = some namingFile := rfl
  exact ⟨hroot, namingCatalog_loaded, hfile, recorded_packages hroot namingCatalog_loaded hfile⟩

/-- The reference to `N` records the package `q`, but `N` is owned by a file with the package
`p`. -/
theorem recorded_package_astray :
    Catalog.ofRoot sharedNames ⟨"/s"⟩ = .ok (nothingLoaded []) ∧
    ReachedOver (nothingLoaded []) [sharedNames] namingCatalog ∧
    ∃ m ∈ namingFile.messages, ∃ x ∈ m.fields, ∃ id owner,
      namingCatalog.graph.file? 1 = some namingFile ∧
      x.type = .reference (some "q") "N" id ∧
      namingCatalog.graph.file? id.file = some owner ∧ owner.package? = some "p" := by
  refine ⟨by decide +kernel, namingCatalog_loaded, _, List.mem_cons_self, _,
    List.mem_cons_of_mem _ List.mem_cons_self, ⟨0, .enumeration, 0⟩, namedFile, rfl, rfl, rfl, ?_⟩
  decide

end SchemaGen
