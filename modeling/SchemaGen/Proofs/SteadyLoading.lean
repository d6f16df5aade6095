import SchemaGen.Proofs.LaterRuns
import SchemaGen.Proofs.MissingFiles
import SchemaGen.Proofs.SourceFiles

/-!
# Loading where files are missing

What can be loaded from a file system can also be loaded from one that lags behind, as long as the
schema files hold the same in both. Both loads give the same files, under the same numbers. For this
a catalog has to know only files that it has: an import of a file that is known leads to its place
in both file systems then.

Results:
1. `Loads.remembers`: catalogs know only files that they have.
2. `Loads.follows`: a load that succeeds, in a file system that lags behind.
3. `Catalog.load_follows`: a root file loads in both file systems or cannot be read in both.
-/

namespace SchemaGen

/-! ## Definitions -/

/-- The catalog knows only the paths of files that it has. -/
def Catalog.Remembers (c : Catalog) : Prop :=
  ∀ l : Location, l.IsPlain → ∀ id, c.loaded? l.path = some id → l ∈ c.graph.locations

/-- In `fs` the request succeeds with the files `ids` and ends with the catalog `final`. -/
def Request.Gives (fs : FileSystem) (c : Catalog) (ids : List FileId) (final : Catalog) :
    Request → Prop
  | .file l => ∃ id, ids = [id] ∧ (Catalog.loadAt fs c l).val = (.ok id, final)
  | .imports name paths => (Catalog.loadImports fs c name paths).val = (.ok ids, final)

/-! ## 1. Known files -/

namespace SteadyLoadingLemmas

variable {g : Graph} {l : Location}

theorem locations_subset {g' : Graph} (h : g.files <+: g'.files) {m : Location}
    (hm : m ∈ g.locations) : m ∈ g'.locations :=
  (h.map _).subset hm

theorem mem_locations_add {c : Catalog} {root : Path} {d : Document} {imported : List FileId}
    {f : SchemaFile} (h : Catalog.build root g l d imported = .ok f) (hl : l.IsPlain) :
    l ∈ (c.add l f).graph.locations := by
  have hpath : f.path = l.path := Catalog.build_path h
  refine List.mem_map.2 ⟨{ f with id := c.graph.nextId }, ?_, ?_⟩
  · exact List.mem_append_right _ (List.mem_singleton_self _)
  · exact (congrArg Path.pieces hpath).trans (Location.pieces_path hl)

theorem plain_of_import {fs : FileSystem} {c : Catalog} (hc : c.IsDistinct) {path : String}
    (h : fs.canonicalize (c.root / path) = .ok l) : l.IsPlain :=
  FileSystem.plain_of_canonicalize (Path.isAbsolute_join hc.absolute _) h

end SteadyLoadingLemmas

open SteadyLoadingLemmas

variable {c : Catalog} {fs : FileSystem} {l : Location} {r : Request}
  {result : Except LoadError (List FileId)} {p : Path} {fs' : FileSystem} {final : Catalog}

theorem Catalog.Remembers.add (hc : c.Remembers) {root : Path} {g : Graph} {d : Document}
    {imported : List FileId} {f : SchemaFile} (h : Catalog.build root g l d imported = .ok f)
    (hl : l.IsPlain) : (c.add l f).Remembers := by
  intro m hm id hid
  rw [Catalog.loaded?_add] at hid
  split at hid
  · next hsame =>
    obtain rfl := (Location.same_path_iff hl hm).1 hsame
    exact mem_locations_add h hl
  · exact locations_subset (List.prefix_append _ _) (hc m hm id hid)

/-- Loading keeps this, whatever file system it reads. -/
theorem Loads.remembers {c' : Catalog} (h : Loads fs c r result c') (hc : c.IsDistinct)
    (hr : r.Admitted c) (hknown : c.Remembers) : c'.Remembers := by
  induction h with
  | known => exact hknown
  | unread => exact hknown
  | stuck hnew _ _ ih => exact ih (hc.enter hr.1 hnew) trivial hknown
  | refused hnew _ _ _ ih => exact ih (hc.enter hr.1 hnew) trivial hknown
  | @added c after l d imported f hnew _ _ hbuild ih =>
    have hafter : after.leave.Remembers := ih (hc.enter hr.1 hnew) trivial hknown
    exact hafter.add hbuild hr.1
  | done => exact hknown
  | unresolved => exact hknown
  | cycle => exact hknown
  | failed hpath hloading _ ih => exact ih hc ⟨plain_of_import hc hpath, hloading⟩ hknown
  | nextFails hpath hloading hfirst _ ih ih' =>
    have hadmitted := And.intro (plain_of_import hc hpath) hloading
    exact ih' (hfirst.distinct hc hadmitted).1 trivial (ih hc hadmitted hknown)
  | next hpath hloading hfirst _ ih ih' =>
    have hadmitted := And.intro (plain_of_import hc hpath) hloading
    exact ih' (hfirst.distinct hc hadmitted).1 trivial (ih hc hadmitted hknown)

theorem Catalog.IsOrderly.admitted (hc : c.IsOrderly)
    (hl : fs.canonicalize (c.root.join p) = .ok l) : (Request.file l).Admitted c :=
  ⟨FileSystem.plain_of_canonicalize (Path.isAbsolute_join hc.absolute p) hl,
    hc.idle ▸ List.not_mem_nil⟩

theorem Catalog.Remembers.load (hknown : c.Remembers) (hc : c.IsOrderly) (fs : FileSystem)
    (p : Path) : ((Catalog.load fs p).run c).2.Remembers := by
  cases hl : fs.canonicalize (c.root.join p) with
  | error cause =>
    rw [Catalog.load_of_error hl]
    exact hknown
  | ok l =>
    rw [Catalog.load_of_ok hl]
    exact ((Catalog.loads_both fs).1 c l).remembers hc.toIsDistinct (hc.admitted hl) hknown

theorem Catalog.remembers_of_ofRoot {dir : Path} (h : Catalog.ofRoot fs dir = .ok c) :
    c.Remembers := by
  unfold Catalog.ofRoot at h
  split at h
  · cases h
    exact fun _ _ _ => nofun
  · cases h

/-! ## 2. Loads that succeed -/

namespace FileSystem

variable {fs fs' : FileSystem} {p : Path} {l : Location}

/-- What is there leads to the same place in both file systems. -/
theorem Lags.canonicalize (h : fs.Lags fs') (hp : fs.canonicalize p = .ok l) :
    fs'.canonicalize p = .ok l := by
  obtain ⟨hl, hsome⟩ := canonicalize_eq_ok_iff.1 hp
  exact canonicalize_eq_ok_iff.2
    ⟨(h.reaches_iff DiskChangesLemmas.steps_ne_nil).1 hl, h.isSome hsome⟩

/-- A path that leads to a file that is not missing leads there in both file systems. -/
theorem Lags.canonicalize_behind (h : fs.Lags fs') (hp : fs'.canonicalize p = .ok l)
    (hsame : fs.contents? l = fs'.contents? l) : fs.canonicalize p = .ok l := by
  obtain ⟨hl, hsome⟩ := canonicalize_eq_ok_iff.1 hp
  refine canonicalize_eq_ok_iff.2 ⟨(h.reaches_iff DiskChangesLemmas.steps_ne_nil).2 hl, ?_⟩
  rw [← isSome_kind?] at hsome ⊢
  rcases h.kinds l with heq | ⟨-, hfile⟩
  · rw [heq]
    exact hsome
  · obtain ⟨contents, hfull⟩ := file_iff_kind.2 hfile
    obtain ⟨access, hshape, -⟩ :=
      contents?_eq_some_iff.1 (hsame.trans (contents?_of_full hfull))
    rw [file_iff_kind.1 ⟨contents, hshape⟩]
    rfl

theorem Lags.contents?_eq_none (h : fs.Lags fs') (hnone : fs'.contents? l = none) :
    fs.contents? l = none := by
  refine Option.eq_none_iff_forall_ne_some.2 fun contents hcontents => ?_
  obtain ⟨access, hshape, haccess⟩ := contents?_eq_some_iff.1 hcontents
  have hfile := file_iff_kind.1 ⟨contents, hshape⟩
  rcases h.kinds l with heq | ⟨⟨hmissing, -⟩, -⟩
  · obtain ⟨contents', hshape'⟩ := file_iff_kind.2 (heq ▸ hfile)
    cases hnone.symm.trans (contents?_eq_some_iff.2 ⟨access, hshape', haccess⟩)
  · rw [hmissing] at hfile
    cases hfile

end FileSystem

/-- A request that succeeds also does so in a file system that lags behind, if the schema files
loaded in the end hold the same in both. -/
theorem Loads.follows (hlags : fs.Lags fs') (h : Loads fs' c r result final) (hc : c.IsDistinct)
    (hr : r.Admitted c) (hknown : c.Remembers)
    (hsame : ∀ m ∈ final.graph.locations, fs.contents? m = fs'.contents? m) {ids : List FileId}
    (hok : result = .ok ids) : r.Gives fs c ids final := by
  induction h generalizing ids with
  | known hloaded =>
    obtain rfl := Except.ok.inj hok
    exact ⟨_, rfl, Catalog.loadAt_known hloaded⟩
  | @added c after l d imported f hnew hread himports hbuild ih =>
    obtain rfl := Except.ok.inj hok
    have hholds : Holds fs l d :=
      (Catalog.read_eq_ok_iff.1 hread).of_contents (hsame l (mem_locations_add hbuild hr.1))
    have hgrows : after.graph.files <+: (after.leave.add l f).graph.files :=
      List.prefix_append _ _
    have hgives : (Catalog.loadImports fs (c.enter l) (Catalog.nameOf c.root l) d.imports).val =
        (.ok imported, after) :=
      ih (hc.enter hr.1 hnew) trivial hknown (fun m hm => hsame m (locations_subset hgrows hm)) rfl
    refine ⟨_, rfl, ?_⟩
    rw [Catalog.loadAt_new hnew (Catalog.read_eq_ok_iff.2 hholds), hgives]
    simp only [hbuild]
  | done =>
    obtain rfl := Except.ok.inj hok
    exact Catalog.loadImports_nil
  | @next c after final file path paths l id rest hpath hloading hfirst hrest ih ih' =>
    obtain rfl := Except.ok.inj hok
    have hadmitted : (Request.file l).Admitted c := ⟨plain_of_import hc hpath, hloading⟩
    -- The file that is imported is loaded then, so it lies at the same place in both.
    have hmem : l ∈ after.graph.locations := by
      cases hfirst with
      | known hloaded => exact hknown l hadmitted.1 _ hloaded
      | added _ _ _ hbuild => exact mem_locations_add hbuild hadmitted.1
    have hfinal := locations_subset hrest.graph_grows hmem
    obtain ⟨_, hid, hgives⟩ := ih hc hadmitted hknown
      (fun m hm => hsame m (locations_subset hrest.graph_grows hm)) rfl
    cases hid
    have hgives' : (Catalog.loadImports fs after file paths).val = (.ok rest, final) :=
      ih' (hfirst.distinct hc hadmitted).1 trivial (hfirst.remembers hc hadmitted hknown) hsame rfl
    show (Catalog.loadImports fs c file (path :: paths)).val = _
    rw [Catalog.loadImports_cons (hlags.canonicalize_behind hpath (hsame l hfinal)) hloading,
      hgives]
    simp only [hgives']
    rfl
  | _ => cases hok

/-! ## 3. Root files -/

/-- A root file that does not stop a run does not do so in a file system that lags behind, and
leaves the same catalog. -/
theorem Catalog.load_follows (hlags : fs.Lags fs') (hc : c.IsOrderly) (hknown : c.Remembers)
    (hplace : (fs.canonicalize (c.root.join p)).toOption =
      (fs'.canonicalize (c.root.join p)).toOption) {result : Except LoadError FileId}
    (h : (Catalog.load fs' p).run c = (result, final))
    (hfine : ∀ e, result = .error e → e.isAdvisory = true)
    (hsame : ∀ m ∈ final.graph.locations, fs.contents? m = fs'.contents? m) :
    ∃ result', (Catalog.load fs p).run c = (result', final) ∧
      result'.toOption = result.toOption ∧ ∀ e, result' = .error e → e.isAdvisory = true := by
  cases hl : fs.canonicalize (c.root.join p) with
  | error cause =>
    rw [hl] at hplace
    cases hl' : fs'.canonicalize (c.root.join p) with
    | ok l =>
      rw [hl'] at hplace
      cases hplace
    | error cause' =>
      rw [Catalog.load_of_error hl'] at h
      obtain ⟨rfl, rfl⟩ := Prod.mk.inj h
      refine ⟨_, Catalog.load_of_error hl, rfl, fun e he => ?_⟩
      cases he
      rfl
  | ok l =>
    have hl' := hlags.canonicalize hl
    have hloads := (Catalog.loads_both fs').1 c l
    rw [← Catalog.load_of_ok hl', h] at hloads
    cases result with
    | ok id =>
      obtain ⟨_, hid, hgives⟩ :=
        hloads.follows hlags hc.toIsDistinct (hc.admitted hl) hknown hsame rfl
      cases hid
      exact ⟨_, (Catalog.load_of_ok hl).trans hgives, rfl, nofun⟩
    | error e =>
      obtain ⟨rfl, hnone⟩ := Catalog.load_advisory h (hfine e rfl)
      rw [hl'] at hnone
      have hnone' : fs.contents? l = none := hlags.contents?_eq_none hnone
      have hnew : final.loaded? l.path = none := by
        refine Option.eq_none_iff_forall_ne_some.2 fun id hid => ?_
        rw [Catalog.load_of_ok hl', Catalog.loadAt_known hid] at h
        cases h
      cases hread : fs.readAt l with
      | ok contents =>
        rw [FileSystem.readAt_eq_ok_iff, hnone'] at hread
        cases hread
      | error cause =>
        refine ⟨.error (.unreadable l.path cause), ?_, rfl, fun e he => ?_⟩
        · rw [Catalog.load_of_ok hl, Catalog.loadAt, hnew, Catalog.read, hread]
        · cases he
          rfl

end SchemaGen
