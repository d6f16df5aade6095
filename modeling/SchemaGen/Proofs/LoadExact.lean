import SchemaGen.Proofs.Dependencies
import SchemaGen.Proofs.NameLookup

/-!
# What can be loaded

A file can be loaded just if all that it reaches through imports can be read, nothing of this is on
a cycle of imports, and each of these files is well-formed in itself: names are defined once, there
is a package for them, and type names mean something. `Loadable` says so in terms of the file system
alone, without a catalog.

Results:
1. `build_isOk_iff`: a file whose imports are loaded can be built just if it is well-formed.
2. `Built.loadable`: all that is loaded is loadable.
3. `Loads.succeeds`: the loader does not fail on what is loadable.
4. `load_isOk_iff`: a load of a new catalog succeeds just for loadable files, and then the catalog
   holds just what they reach.
-/

namespace SchemaGen

open Relation

/-! ## Definitions -/

/-- The type name `name` means something in the file at `l`: it is a base type, or the file or one
that it reaches through imports offers it. -/
def Meaningful (fs : FileSystem) (root : Path) (l : Location) (name : String) : Prop :=
  (∃ base : BaseType, base.name = name) ∨
    ∃ m d, ReflTransGen (Imports fs root) l m ∧ Holds fs m d ∧ Offers d.package? d.names name

/-- What the document `d` of the file at `l` must satisfy. -/
structure WellFormed (fs : FileSystem) (root : Path) (l : Location) (d : Document) : Prop where
  distinct : d.names.Nodup
  packaged : d.names ≠ [] → d.package?.isSome
  typed : ∀ m ∈ d.messages, ∀ field ∈ m.members, ∀ name ∈ field.type.names,
    Meaningful fs root l name

/-- What must be so in the file system for the file at `l` to be loaded. -/
structure Loadable (fs : FileSystem) (root : Path) (l : Location) : Prop where
  readable : ∀ m, ReflTransGen (Imports fs root) l m → ∃ d, Holds fs m d ∧
    ∀ path ∈ d.imports, ∃ m', fs.canonicalize (root / path) = .ok m'
  acyclic : ∀ m, ReflTransGen (Imports fs root) l m → ¬ TransGen (Imports fs root) m m
  wellFormed : ∀ m d, ReflTransGen (Imports fs root) l m → Holds fs m d → WellFormed fs root m d

variable {fs : FileSystem} {l : Location}

theorem Loadable.step {root : Path} {m : Location} (h : Loadable fs root l)
    (hstep : Imports fs root l m) : Loadable fs root m where
  readable m' hm' := h.readable m' (.head hstep hm')
  acyclic m' hm' := h.acyclic m' (.head hstep hm')
  wellFormed m' d hm' := h.wellFormed m' d (.head hstep hm')

/-! ## 1. Building files -/

theorem Holds.named {d : Document} (h : Holds fs l d) : ∀ header ∈ d.headers, header.IsNamed := by
  obtain ⟨_, _, -, -, hd⟩ := h
  exact Document.named_of_ofText hd

namespace LoadExactLemmas

theorem ofName?_isSome_iff (name : String) :
    (BaseType.ofName? name).isSome ↔ ∃ base : BaseType, base.name = name := by
  rw [BaseType.ofName?, List.find?_isSome]
  constructor
  · rintro ⟨base, -, hbase⟩
    exact ⟨base, of_decide_eq_true hbase⟩
  · rintro ⟨base, hbase⟩
    refine ⟨base, ?_, decide_eq_true hbase⟩
    cases base <;> decide

theorem offers_congr {package : Option String} {names names' : List String} {name : String}
    (h : ∀ n, n ∈ names ↔ n ∈ names') : Offers package names name ↔ Offers package names' name := by
  simp only [Offers, h]

/-- A loaded file has the package and the names of its document. -/
theorem declares {fs : FileSystem} {root : Path} {g : Graph} (hg : Built fs root g) {i : FileId}
    {f : SchemaFile} (hf : g.file? i = some f) :
    ∃ d, Holds fs f.location d ∧ f.package? = d.package? ∧ ∀ n, n ∈ f.names ↔ n ∈ d.names := by
  obtain ⟨g', l, d, imported, -, hnext, -, -⟩ := hg.origin hf
  obtain ⟨-, hpackage, hnames⟩ := SchemaFile.fill_effect hnext.built
  refine ⟨d, hnext.location_eq ▸ hnext.holds, ?_, fun n => ?_⟩
  · rw [hpackage, Document.package?_addHeaders hnext.holds.named]
    exact Option.or_none
  · rw [hnames n]
    exact ⟨fun h => h.resolve_left List.not_mem_nil, .inr⟩

theorem indexed {fs : FileSystem} {root : Path} {g : Graph} (hg : Built fs root g) :
    g.IsIndexed := by
  intro i f hf
  obtain ⟨g', l, d, imported, -, hnext, -, -⟩ := hg.origin hf
  exact Catalog.build_indexed hnext.built

section Prepared

variable {fs : FileSystem} {root : Path} {g : Graph} {l : Location} {d : Document}
  {imported : List FileId} (hg : Built fs root g) (h : Prepared fs root g l d imported)

include hg h

/-- The scope of a new file knows just the names that mean something there. -/
theorem knows_iff {s : Scope} (hgraph : s.graph = g) (hpackage : s.package = d.package?)
    (hown : s.own.map (·.1) = d.names) (hdependencies : s.dependencies = g.closure imported)
    (name : String) : s.Knows name ↔ Meaningful fs root l name := by
  rw [Scope.Knows, ofName?_isSome_iff, Scope.lookup?_isSome_iff (hgraph ▸ indexed hg), hgraph,
    hpackage, hown, hdependencies]
  refine or_congr_right ?_
  constructor
  · rintro (hself | ⟨id, hid, f, hf, hoffers⟩)
    · exact ⟨l, d, .refl, h.holds, hself⟩
    · obtain ⟨d', hd', hpackage', hnames⟩ := declares hg hf
      refine ⟨f.location, d', ?_, hd', ?_⟩
      · exact ((h.reaches hg _).2 ⟨id, hid, Graph.location?_of_file? hf⟩).to_reflTransGen
      · rwa [← hpackage', ← offers_congr hnames]
  · rintro ⟨m, d', hsteps, hd', hoffers⟩
    rcases reflTransGen_iff_eq_or_transGen.1 hsteps with rfl | hsteps
    · obtain rfl := h.holds.unique hd'
      exact .inl hoffers
    · obtain ⟨id, hid, hm⟩ := (h.reaches hg m).1 hsteps
      obtain ⟨f, hf, rfl⟩ := Graph.exists_file_of_location? hm
      obtain ⟨d'', hd'', hpackage', hnames⟩ := declares hg hf
      obtain rfl := hd'.unique hd''
      refine .inr ⟨id, hid, f, hf, ?_⟩
      rwa [hpackage', offers_congr hnames]

end Prepared

end LoadExactLemmas

open LoadExactLemmas

/-- A file whose imports are loaded can be built just if its document is well-formed. -/
theorem build_isOk_iff {root : Path} {g : Graph} {d : Document} {imported : List FileId}
    (hg : Built fs root g) (h : Prepared fs root g l d imported) :
    (∃ f, Catalog.build root g l d imported = .ok f) ↔ WellFormed fs root l d := by
  unfold Catalog.build
  generalize hempty : { SchemaFile.empty g.nextId root (Catalog.relative root l.path) l.path with
    dependencies := g.closure imported } = f₀
  have hnew : f₀.IsNew := by
    rw [← hempty]
    exact ⟨rfl, rfl, rfl⟩
  have hpackage : (d.headers.foldl SchemaFile.addHeader f₀).package? = d.package? := by
    rw [Document.package?_addHeaders h.holds.named, ← hempty]
    exact Option.or_none
  have hplace := FillingLemmas.addHeaders_place f₀ d.headers
  have hdependencies : (d.headers.foldl SchemaFile.addHeader f₀).dependencies =
      g.closure imported := by
    rw [← hempty] at hplace ⊢
    exact congrArg (·.2.2.2.2) hplace
  have hknows := knows_iff hg h (s := (d.headers.foldl SchemaFile.addHeader f₀).scope g d) rfl
    hpackage (NameLookupLemmas.map_declared _ d) hdependencies
  rw [SchemaFile.fill_isOk_iff hnew, hpackage]
  constructor
  · rintro ⟨hdistinct, hpackaged, htyped⟩
    refine ⟨hdistinct, hpackaged, fun m hm field hfield name hname => ?_⟩
    exact (hknows name).1 (htyped m hm field hfield name hname)
  · rintro ⟨hdistinct, hpackaged, htyped⟩
    refine ⟨hdistinct, hpackaged, fun m hm field hfield name hname => ?_⟩
    exact (hknows name).2 (htyped m hm field hfield name hname)

/-! ## 2. Loaded files are loadable -/

namespace Built

variable {fs : FileSystem} {root : Path} {g : Graph} {i : FileId} {f : SchemaFile}
  (hg : Built fs root g) (hf : g.file? i = some f)

include hg hf

/-- What a loaded file reaches is loaded. -/
theorem loaded_of_reaches {m : Location} (hsteps : ReflTransGen (Imports fs root) f.location m) :
    ∃ j f', g.file? j = some f' ∧ f'.location = m := by
  rcases reflTransGen_iff_eq_or_transGen.1 hsteps with rfl | hsteps
  · exact ⟨i, f, hf, rfl⟩
  · obtain ⟨j, -, hj⟩ := ((hg.tracked hf).reaches m).1 hsteps
    exact ⟨j, Graph.exists_file_of_location? hj⟩

theorem not_reaches_itself : ¬ TransGen (Imports fs root) f.location f.location := by
  intro hcycle
  -- The file would be among its dependencies, which all have smaller numbers.
  obtain ⟨j, hj, hlocation⟩ := ((hg.tracked hf).reaches f.location).1 hcycle
  have heq : j = i := hg.location?_inj hlocation (Graph.location?_of_file? hf)
  exact Nat.ne_of_lt ((hg.tracked hf).lt j hj) heq

theorem holds_of_file? :
    ∃ d, Holds fs f.location d ∧ WellFormed fs root f.location d ∧
      ∀ path ∈ d.imports, ∃ m, fs.canonicalize (root / path) = .ok m := by
  obtain ⟨g', l, d, imported, hg', hnext, -, -⟩ := hg.origin hf
  rw [hnext.location_eq]
  refine ⟨d, hnext.holds, (build_isOk_iff hg' hnext.toPrepared).1 ⟨f, hnext.built⟩, ?_⟩
  intro path hpath
  obtain ⟨id, -, m, hm, -⟩ := DependenciesLemmas.exists_of_mem_left hnext.leads hpath
  exact ⟨m, hm⟩

theorem loadable : Loadable fs root f.location where
  readable m hm := by
    obtain ⟨j, f', hf', rfl⟩ := hg.loaded_of_reaches hf hm
    obtain ⟨d, hd, -, himports⟩ := hg.holds_of_file? hf'
    exact ⟨d, hd, himports⟩
  acyclic m hm := by
    obtain ⟨j, f', hf', rfl⟩ := hg.loaded_of_reaches hf hm
    exact hg.not_reaches_itself hf'
  wellFormed m d hm hd := by
    obtain ⟨j, f', hf', rfl⟩ := hg.loaded_of_reaches hf hm
    obtain ⟨d', hd', hwell, -⟩ := hg.holds_of_file? hf'
    rwa [hd.unique hd']

end Built

/-! ## 3. Loadable files are loaded -/

namespace Request

/-- All that is asked for can be loaded. -/
def IsLoadable (fs : FileSystem) (root : Path) : Request → Prop
  | file l => Loadable fs root l
  | imports _ paths => ∀ path ∈ paths, ∃ l, fs.canonicalize (root / path) = .ok l ∧
      Loadable fs root l

/-- All that is asked for is reached from every file that is being loaded. -/
def Chained (fs : FileSystem) (c : Catalog) : Request → Prop
  | file l => ∀ x ∈ c.loading, TransGen (Imports fs c.root) x l
  | imports _ paths => ∀ path ∈ paths, ∀ l, fs.canonicalize (c.root / path) = .ok l →
      ∀ x ∈ c.loading, TransGen (Imports fs c.root) x l

variable {fs : FileSystem}

theorem IsLoadable.imports_of_file {root : Path} {l : Location} {d : Document}
    (h : (file l).IsLoadable fs root) (hd : Holds fs l d) (name : String) :
    (imports name d.imports).IsLoadable fs root := by
  intro path hpath
  obtain ⟨d', hd', himports⟩ := h.readable l .refl
  obtain rfl := hd.unique hd'
  obtain ⟨m, hm⟩ := himports path hpath
  exact ⟨m, hm, h.step ⟨d, hd, path, hpath, hm⟩⟩

/-- Going on to what a file imports makes the chain longer by this file. -/
theorem Chained.enter {c : Catalog} {l : Location} {d : Document} (h : (file l).Chained fs c)
    (hd : Holds fs l d) (name : String) : (imports name d.imports).Chained fs (c.enter l) := by
  intro path hpath m hm x hx
  have hstep : Imports fs c.root l m := ⟨d, hd, path, hpath, hm⟩
  rcases List.mem_cons.1 hx with rfl | hx
  · exact .single hstep
  · exact (h x hx).tail hstep

/-- The chain is the same for the imports that follow. -/
theorem Chained.next {c after : Catalog} {name path : String} {paths : List String}
    (h : (imports name (path :: paths)).Chained fs c) (hroot : after.root = c.root)
    (hloading : after.loading = c.loading) : (imports name paths).Chained fs after := by
  intro path' hpath'
  rw [hroot, hloading]
  exact h path' (List.mem_cons_of_mem _ hpath')

end Request

namespace Loads

variable {fs : FileSystem} {c c' : Catalog} {r : Request}

theorem succeeds {result : Except LoadError (List FileId)} (h : Loads fs c r result c')
    (hc : Sound fs c) (hr : r.Admitted c) (hchained : r.Chained fs c)
    (hloadable : r.IsLoadable fs c.root) : ∃ ids, result = .ok ids := by
  induction h with
  | known => exact ⟨_, rfl⟩
  | @unread c l e hnew hread =>
    obtain ⟨d, hd, -⟩ := hloadable.readable l .refl
    rw [Catalog.read_eq_ok_iff.2 hd] at hread
    cases hread
  | stuck hnew hread himports ih =>
    have hd := Catalog.read_eq_ok_iff.1 hread
    obtain ⟨ids, ⟨⟩⟩ := ih (hc.enter hr.1 hnew) trivial (hchained.enter hd _)
      (hloadable.imports_of_file hd _)
  | @refused c after l d imported e hnew hread himports hbuild ih =>
    have hkeeps := himports.keeps (hc.enter hr.1 hnew) trivial
    have hwell : WellFormed fs after.root l d := by
      rw [hkeeps.root]
      exact hloadable.wellFormed l d .refl (Catalog.read_eq_ok_iff.1 hread)
    obtain ⟨f, hf⟩ := (build_isOk_iff hkeeps.sound.built (hkeeps.prepared hr.1 hread)).2 hwell
    rw [hf] at hbuild
    cases hbuild
  | added => exact ⟨_, rfl⟩
  | done => exact ⟨_, rfl⟩
  | @unresolved c file path paths cause hpath =>
    obtain ⟨l, hl, -⟩ := hloadable path List.mem_cons_self
    rw [hl] at hpath
    cases hpath
  | @cycle c file path paths l hpath hloading =>
    -- The file is reached from itself, since it is reached from all that are being loaded.
    obtain ⟨l', hl', hable⟩ := hloadable path List.mem_cons_self
    obtain rfl := Except.ok.inj (hpath.symm.trans hl')
    exact absurd (hchained path List.mem_cons_self l hpath l hloading) (hable.acyclic l .refl)
  | @failed c after file path paths l e hpath hloading hfirst ih =>
    obtain ⟨l', hl', hable⟩ := hloadable path List.mem_cons_self
    obtain rfl := Except.ok.inj (hpath.symm.trans hl')
    obtain ⟨ids, ⟨⟩⟩ := ih hc ⟨hc.built.plain_of_leads hpath, hloading⟩
      (hchained path List.mem_cons_self l hpath) hable
  | @nextFails c after final file path paths l id e hpath hloading hfirst hrest ih ih' =>
    obtain ⟨hsound, hroot, hloading', -⟩ :=
      hfirst.keeps hc ⟨hc.built.plain_of_leads hpath, hloading⟩
    have hrest' : (Request.imports file paths).IsLoadable fs after.root := by
      intro path' hpath'
      rw [hroot]
      exact hloadable path' (List.mem_cons_of_mem _ hpath')
    obtain ⟨ids, ⟨⟩⟩ := ih' hsound trivial (hchained.next hroot hloading') hrest'
  | next => exact ⟨_, rfl⟩

end Loads

/-! ## 4. Loads of a new catalog -/

theorem Settled.chained {c : Catalog} (hc : Settled fs c) (l : Location) :
    (Request.file l).Chained fs c := by
  simp [Request.Chained, hc.idle]

namespace LoadExactLemmas

theorem graph_of_ofRoot {fs : FileSystem} {dir : Path} {start : Catalog}
    (h : Catalog.ofRoot fs dir = .ok start) : start.graph = .empty := by
  unfold Catalog.ofRoot at h
  split at h <;> cases h
  rfl

theorem load_succeeds {fs : FileSystem} {c : Catalog} {p : Path} {l : Location}
    (hc : Settled fs c) (hl : fs.canonicalize (c.root.join p) = .ok l)
    (hloadable : Loadable fs c.root l) : ∃ id, ((Catalog.load fs p).run c).1 = .ok id := by
  obtain ⟨ids, hids⟩ := ((Catalog.loads_both fs).1 c l).succeeds hc.toSound (hc.admitted hl)
    (hc.chained l) hloadable
  rw [Catalog.load_of_ok hl]
  cases hresult : (Catalog.loadAt fs c l).val.1 with
  | error e =>
    rw [hresult] at hids
    cases hids
  | ok id => exact ⟨id, rfl⟩

end LoadExactLemmas

/-- A load of a new catalog always ends, since it is a function. It succeeds just if the path leads
to a file that is loadable. The catalog then holds all files that this one reaches through imports
and no others, each of them once. -/
theorem load_isOk_iff {fs : FileSystem} {dir : Path} {start : Catalog}
    (hstart : Catalog.ofRoot fs dir = .ok start) (p : Path) :
    ((∃ id, ((Catalog.load fs p).run start).1 = .ok id) ↔
      ∃ l, fs.canonicalize (start.root.join p) = .ok l ∧ Loadable fs start.root l) ∧
    ∀ id, ((Catalog.load fs p).run start).1 = .ok id →
      let g := ((Catalog.load fs p).run start).2.graph
      g.locations.Nodup ∧ ∃ l, fs.canonicalize (start.root.join p) = .ok l ∧
        g.locations[id]? = some l ∧
        ∀ m, m ∈ g.locations ↔ ReflTransGen (Imports fs start.root) l m := by
  have hsettled := Settled.of_ofRoot hstart
  obtain ⟨hafter, hroot, -, hfound⟩ := hsettled.load p
  have hbuilt := hafter.built
  rw [hroot] at hbuilt
  refine ⟨⟨?_, fun ⟨l, hl, hloadable⟩ => load_succeeds hsettled hl hloadable⟩, fun id hid => ?_⟩
  · rintro ⟨id, hid⟩
    obtain ⟨l, hl, hplain, hlookup, -⟩ := hfound id hid
    obtain ⟨f, hf, rfl⟩ := hbuilt.exists_file_of_find? hplain hlookup
    exact ⟨f.location, hl, hbuilt.loadable hf⟩
  · obtain ⟨l, hl, hplain, hlookup, honly⟩ := hfound id hid
    obtain ⟨f, hf, rfl⟩ := hbuilt.exists_file_of_find? hplain hlookup
    refine ⟨hbuilt.locations_nodup, f.location, hl, Graph.location?_of_file? hf, fun m => ?_⟩
    refine ⟨fun hm => ?_, fun hm => ?_⟩
    · have hnone : m ∉ start.graph.locations := by
        rw [graph_of_ofRoot hstart]
        exact List.not_mem_nil
      exact (honly m hm).resolve_left hnone
    · obtain ⟨j, f', hf', rfl⟩ := hbuilt.loaded_of_reaches hf hm
      exact List.mem_of_getElem? (Graph.location?_of_file? hf')

/-- Of two files, one can be loaded and the other has an import that leads nowhere. -/
theorem loadable_of_sharedImport :
    Catalog.ofRoot sharedImport ⟨"/s"⟩ = .ok (nothingLoaded []) ∧
      Loadable sharedImport ⟨"/s"⟩ ["s", "b"] ∧ ¬ Loadable sharedImport ⟨"/s"⟩ ["s", "c"] := by
  have hsteps : Catalog.ofRoot sharedImport ⟨"/s"⟩ = .ok (nothingLoaded []) ∧
      Catalog.loadWithin sharedImport 1 ⟨"b"⟩ (nothingLoaded []) = some (.ok 0, sharedLoaded []) ∧
      sharedImport.canonicalize ((nothingLoaded []).root.join ⟨"b"⟩) = .ok ["s", "b"] ∧
      sharedImport.canonicalize ((nothingLoaded []).root.join ⟨"c"⟩) = .ok ["s", "c"] := by
    decide +kernel
  obtain ⟨hroot, hwithin, hb, hc⟩ := hsteps
  refine ⟨hroot, ?_, fun hloadable => ?_⟩
  · have hload : ((Catalog.load sharedImport ⟨"b"⟩).run (nothingLoaded [])).1 = .ok 0 := by
      rw [Catalog.load_of_within hwithin]
    obtain ⟨l, hl, hloadable⟩ := (load_isOk_iff hroot ⟨"b"⟩).1.1 ⟨0, hload⟩
    obtain rfl := Except.ok.inj (hb.symm.trans hl)
    exact hloadable
  · obtain ⟨id, hid⟩ := (load_isOk_iff hroot ⟨"c"⟩).1.2 ⟨_, hc, hloadable⟩
    rw [load_missingImport] at hid
    cases hid

end SchemaGen
