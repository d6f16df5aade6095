import SchemaGen.Proofs.GeneratedRuns
import SchemaGen.Proofs.LoadExact
import SchemaGen.Proofs.RootExpansion

/-!
# The schema files that a run reads

A run reads and writes in turn. As long as it writes nothing to the places of the schema files it
has read, these hold the same at the end as when they were read, so the graph of a run is one that
could have been loaded when all roots have been taken up. It has the root files that are not left
out, and what these import, and nothing else.

Results:
1. `Catalog.load_advisory`: a file that cannot be read leaves the catalog as it is.
2. `Built.transfer`: a graph in a file system with the same schema files.
3. `SourceFilesLemmas.covers_rootFiles`: what is loaded for root files, and which are left out.
4. `Session.gathers`: the files of a run and what it counts.
-/

namespace SchemaGen

open Relation

variable {σ : Type}

/-! ## Definitions -/

/-- The computation fails only for reasons that a run does not pass over. -/
def Serious {α : Type} (x : Except LoadError α) : Prop :=
  ∀ e, x = .error e → e.isAdvisory = false

/-- Where the schema file lies that a root file is, unless a run leaves it out: then it is on the
skip list, or there is no file. -/
def RootFile.source? (plan : Plan σ) (fs : FileSystem) (schemaRoot : Path) (r : RootFile) :
    Option Location :=
  let resolved := r.named.bind fun l => schemaRoot.below? l.path
  if plan.skip.skips (((schemaRoot.below? r.path).or resolved).getD r.path).slashed then none
  else r.place.filter fun l => (fs.contents? l).isSome

/-- Where the schema file lies that the root file with this path is. -/
def Plan.source? (plan : Plan σ) (fs : FileSystem) (schemaRoot path : Path) : Option Location :=
  (RootFile.of fs schemaRoot path).source? plan fs schemaRoot

/-- None of the paths leads to the place of a schema file. -/
def FileSystem.Spares (fs : FileSystem) (written : List Path) (g : Graph) : Prop :=
  ∀ p ∈ written, ∀ f ∈ g.files, ¬ fs.Reaches .reach p p.steps f.location

open GeneratedRunsLemmas in
/-- What a run over root files has read. What they are is told from the file system `fs`. -/
structure Session.Covers (plan : Plan σ) (fs : FileSystem) (s : Session σ) (paths : List Path)
    (after : Session σ) : Prop where
  settled : Settled after.workspace.files after.catalog
  root : after.catalog.root = s.catalog.root
  left : (Run.along (Run.rootFile plan) (leftAt plan) paths s).length =
    paths.countP fun path => (plan.source? fs s.catalog.root path).isNone
  found : ∀ path ∈ paths, ∀ l, plan.source? fs s.catalog.root path = some l →
    l ∈ after.catalog.graph.locations
  /-- Nothing else is loaded. -/
  only : ∀ m ∈ after.catalog.graph.locations, m ∈ s.catalog.graph.locations ∨
    ∃ v ∈ Run.along (Run.rootFile plan) (visitAt plan) paths s,
      (∃ path ∈ paths, plan.source? fs s.catalog.root path = some v.file.location) ∧
        ∃ f ∈ v.files, f.location = m

/-- The session when all roots have been taken up, before the target ends. -/
def Session.walked (plan : Plan σ) (roots : List Path) (s : Session σ) : Session σ :=
  ((roots.forM (Run.root plan)).run s).2

variable {plan : Plan σ} {roots : List Path} {s : Session σ} {α : Type} {c' : Catalog}
  {l : Location} {schemaRoot : Path}

theorem Session.walked_eq {after : Session σ}
    (hroots : (roots.forM (Run.root plan)).run s = (.ok (), after)) : s.walked plan roots = after :=
  congrArg Prod.snd hroots

/-- A run leaves what it reads as it is: when all roots have been taken up, they stand for the same
root files as at the start, and nothing has been written to the places of schema files. -/
structure Session.Undisturbed (plan : Plan σ) (roots : List Path) (s : Session σ) : Prop where
  steady : ∀ root ∈ roots,
    plan.rootFiles (s.walked plan roots).workspace.files s.catalog.root root =
      plan.rootFiles s.workspace.files s.catalog.root root
  sources : (s.walked plan roots).workspace.files.Spares
    (s.walked plan roots).workspace.output.written (s.walked plan roots).catalog.graph

/-- What a run has read, told and counted when all roots have been taken up, as far as it can be
told from the start and from there. -/
structure Session.Gathers (plan : Plan σ) (roots : List Path) (s : Session σ) : Prop where
  built : Built (s.walked plan roots).workspace.files s.catalog.root
    (s.walked plan roots).catalog.graph
  kept : ∀ m ∈ (s.walked plan roots).catalog.graph.locations,
    (s.walked plan roots).workspace.files.contents? m = s.workspace.files.contents? m
  grows : s.workspace.files.Grows (s.walked plan roots).workspace.files
  /-- What root files there are, and what they import, is loaded. -/
  locations : ∀ m, m ∈ (s.walked plan roots).catalog.graph.locations ↔
    ∃ path ∈ roots.flatMap (plan.filesOfRoot s.workspace.files), ∃ l,
      plan.source? s.workspace.files s.catalog.root path = some l ∧
        ReflTransGen (Imports (s.walked plan roots).workspace.files s.catalog.root) l m
  /-- The target is told about all that is loaded. -/
  told : ∀ f, f ∈ s.told plan roots ↔ ∃ i, (s.walked plan roots).catalog.graph.file? i = some f
  counted : (s.walked plan roots).stats = s.stats.counting (s.told plan roots)
    ((roots.flatMap (plan.filesOfRoot s.workspace.files)).countP
      fun path => (plan.source? s.workspace.files s.catalog.root path).isNone)

/-! ## 1. Files that cannot be read -/

theorem serious_ok (a : α) : Serious (.ok a : Except LoadError α) := nofun

theorem Serious.bind {β : Type} {x : Except LoadError α} {f : α → Except LoadError β}
    (hx : Serious x) (hf : ∀ a, Serious (f a)) : Serious (x >>= f) := by
  intro e he
  cases hfirst : x with
  | error err =>
    rw [hfirst] at he
    cases he
    exact hx e hfirst
  | ok a =>
    rw [hfirst] at he
    exact hf a e he

namespace SourceFilesLemmas

section Serious

variable {α ι : Type}

theorem serious_mapM {f : ι → Except LoadError α} (h : ∀ i, Serious (f i)) (items : List ι) :
    Serious (items.mapM f) := by
  induction items with
  | nil => exact serious_ok []
  | cons i rest ih =>
    rw [List.mapM_cons]
    exact (h i).bind fun a => ih.bind fun as => serious_ok (a :: as)

theorem serious_foldlM {f : α → ι → Except LoadError α} (h : ∀ a i, Serious (f a i))
    (items : List ι) (a : α) : Serious (items.foldlM f a) := by
  induction items generalizing a with
  | nil => exact serious_ok a
  | cons i rest ih =>
    rw [List.foldlM_cons]
    exact (h a i).bind ih

theorem serious_declare (f : SchemaFile) (d : Definition) : Serious (f.declare d) := by
  intro e he
  unfold SchemaFile.declare at he
  split at he
  · cases he
  · cases he
    rfl

theorem serious_namedType (s : Scope) (file field name : String) :
    Serious (s.namedType file field name) := by
  unfold Scope.namedType
  split
  · exact serious_ok _
  · split
    · exact serious_ok _
    · intro e he
      cases he
      rfl

theorem serious_message (s : Scope) (file : String) (id : FileId) (d : MessageDecl) :
    Serious (s.message file id d) := by
  refine (serious_mapM (fun x => ?_) _).bind fun _ => serious_ok _
  refine Serious.bind ?_ fun _ => serious_ok _
  unfold Scope.fieldType
  split
  · exact serious_namedType s file _ _
  · exact (serious_namedType s file _ _).bind fun _ =>
      (serious_namedType s file _ _).bind fun _ => serious_ok _

/-- A file that was read is refused for serious reasons only. -/
theorem serious_build (root : Path) (g : Graph) (l : Location) (d : Document)
    (imported : List FileId) : Serious (Catalog.build root g l d imported) := by
  refine (serious_foldlM (fun f m => ?_) _ _).bind fun f => serious_foldlM (fun f e => ?_) _ _
  · exact (serious_message _ _ _ m).bind fun m => serious_declare f (.message m)
  · exact serious_declare f (.enumeration (Scope.enumeration f.id e))

end Serious

theorem contents?_of_read {fs : FileSystem} {root : Path} {l : Location} {e : LoadError}
    (h : Catalog.read fs root l = .error e) (he : e.isAdvisory = true) : fs.contents? l = none := by
  unfold Catalog.read at h
  split at h
  · next cause hcause =>
    refine Option.eq_none_iff_forall_ne_some.2 fun contents hcontents => ?_
    rw [FileSystem.readAt_eq_ok_iff.2 hcontents] at hcause
    cases hcause
  · next contents _ =>
    unfold Catalog.document at h
    split at h
    · cases h
      cases he
    · next text _ =>
      cases hdocument : Document.ofText text with
      | error err =>
        rw [hdocument] at h
        cases h
        cases he
      | ok d =>
        rw [hdocument] at h
        cases h

end SourceFilesLemmas

open SourceFilesLemmas

variable {fs : FileSystem} {c : Catalog} {fs' : FileSystem} {g : Graph} {w now : Workspace σ}

/-- An import that cannot be read is a serious fault of the file that has it. -/
theorem Loads.serious_imports {file : String} {paths : List String}
    {result : Except LoadError (List FileId)} (h : Loads fs c (.imports file paths) result c') :
    Serious result := by
  induction paths generalizing c c' result with
  | nil =>
    cases h
    exact serious_ok []
  | cons path paths ih =>
    intro e he
    rcases h.imports_inv with ⟨cause, -, rfl⟩ | ⟨l, -, hor⟩
    · cases he
      rfl
    rcases hor with ⟨-, rfl⟩ | ⟨-, first, after, -, hor⟩
    · cases he
      rfl
    rcases hor with ⟨err, -, rfl⟩ | ⟨id, rest, final, -, hrest, rfl⟩
    · obtain rfl := Except.error.inj he
      cases err <;> rfl
    · cases rest with
      | error err =>
        cases he
        exact ih hrest e rfl
      | ok ids => cases he

/-- A load that a run passes over has changed nothing, and there was no file. -/
theorem Catalog.load_advisory {p : Path} {e : LoadError}
    (h : (Catalog.load fs p).run c = (.error e, c')) (he : e.isAdvisory = true) :
    c' = c ∧ (fs.canonicalize (c.root.join p)).toOption.bind fs.contents? = none := by
  cases hl : fs.canonicalize (c.root.join p) with
  | error cause =>
    rw [Catalog.load_of_error hl] at h
    exact ⟨(Prod.mk.inj h).2.symm, rfl⟩
  | ok l =>
    rw [Catalog.load_of_ok hl] at h
    have hloads := (Catalog.loads_both fs).1 c l
    rw [h] at hloads
    show c' = c ∧ fs.contents? l = none
    cases hloads with
    | unread _ hread => exact ⟨rfl, contents?_of_read hread he⟩
    | stuck _ _ himports =>
      rw [himports.serious_imports e rfl] at he
      cases he
    | refused _ _ _ hbuild =>
      rw [serious_build _ _ _ _ _ e hbuild] at he
      cases he

/-! ## 2. Other file systems -/

theorem Holds.of_contents {d : Document} (h : Holds fs l d)
    (hsame : fs'.contents? l = fs.contents? l) : Holds fs' l d := by
  obtain ⟨contents, text, hread, htext, hd⟩ := h
  rw [FileSystem.readAt_eq_ok_iff, ← hsame, ← FileSystem.readAt_eq_ok_iff] at hread
  exact ⟨contents, text, hread, htext, hd⟩

/-- A graph could have been loaded from another file system, if its files hold the same there and
their imports lead to the same places. -/
theorem Built.transfer {root : Path} (h : Built fs root g)
    (hsame : ∀ m ∈ g.locations, fs'.contents? m = fs.contents? m)
    (hleads : ∀ m ∈ g.locations, ∀ d, Holds fs m d → ∀ imported ∈ d.imports, ∀ l,
      fs.canonicalize (root / imported) = .ok l → fs'.canonicalize (root / imported) = .ok l) :
    Built fs' root g := by
  induction h with
  | empty absolute => exact .empty absolute
  | @insert g l d imported f built next ih =>
    have hold : ∀ m ∈ g.locations, m ∈ (g.insert f).locations := by
      rw [next.locations_insert]
      exact fun m hm => List.mem_append_left _ hm
    have hnew : l ∈ (g.insert f).locations := by
      rw [next.locations_insert]
      exact List.mem_append_right _ (List.mem_singleton_self l)
    have himports : List.Forall₂ (LeadsTo fs' root g) d.imports imported := by
      have hboth := (List.forall₂_and_left _ _).2 ⟨hleads l hnew d next.holds, next.leads⟩
      refine hboth.imp ?_
      rintro path id ⟨hpath, m, hm, hid⟩
      exact ⟨m, hpath m hm, hid⟩
    have hnext : Extends fs' root g l d imported f :=
      ⟨⟨next.plain, next.new, next.holds.of_contents (hsame l hnew), himports⟩, next.built⟩
    exact (ih (fun m hm => hsame m (hold m hm)) fun m hm => hleads m (hold m hm)).insert hnext

/-- Writing files elsewhere leaves a catalog settled. -/
theorem Settled.grows (h : Settled fs c) (hgrows : fs.Grows fs')
    (hsame : ∀ m ∈ c.graph.locations, fs'.contents? m = fs.contents? m) : Settled fs' c :=
  ⟨⟨h.built.transfer hsame fun _ _ _ _ _ _ _ hl => hgrows.canonicalize hl, h.loaded, h.waiting⟩,
    h.idle⟩

theorem FileSystem.Grows.isSome_contents? (h : fs.Grows fs') (hl : (fs.shape? l).isSome) :
    (fs'.contents? l).isSome = (fs.contents? l).isSome := by
  have hshapes := h.shapes l
  unfold contents?
  generalize fs.shape? l = before at hl hshapes
  generalize fs'.shape? l = after at hshapes
  cases hshapes with
  | rewritten access => cases access <;> rfl
  | absent | made | created => cases hl
  | filled | link => rfl

/-- What a root file is does not change while its path leads to the same places. -/
theorem Plan.source?_grows (plan : Plan σ) (h : fs.Grows fs') {path : Path}
    (hsame : RootFile.of fs' schemaRoot path = RootFile.of fs schemaRoot path) :
    plan.source? fs' schemaRoot path = plan.source? fs schemaRoot path := by
  unfold Plan.source?
  rw [hsame]
  unfold RootFile.source?
  dsimp only
  split
  · rfl
  · cases hplace : fs.canonicalize (schemaRoot.join path) with
    | error cause => simp [RootFile.of, hplace, Except.toOption]
    | ok l =>
      have hl := (FileSystem.canonicalize_eq_ok_iff.1 hplace).2
      simp [RootFile.of, hplace, Except.toOption, Option.filter, h.isSome_contents? hl]

/-! ## 3. Runs over root files -/

theorem FileSystem.Spares.mono {written written' : List Path} {g' : Graph}
    (h : fs'.Spares written' g') (hfs : fs.Grows fs') (hwritten : written ⊆ written')
    (hg : g.files <+: g'.files) : fs.Spares written g :=
  fun p hp f hf hreaches => h p (hwritten hp) f (hg.subset hf) (hreaches.grows hfs)

theorem Workspace.Writes.tidy {files : List GeneratedFile} (h : w.Writes files now)
    (htidy : w.files.IsTidy) : now.files.IsTidy := by
  obtain ⟨placed, -, hwrote⟩ := h
  exact hwrote.changes.tidy htidy

theorem Workspace.Writes.grows {files : List GeneratedFile} (h : w.Writes files now)
    (hroot : w.files.HasDirectory []) : w.files.Grows now.files := by
  obtain ⟨placed, -, hwrote⟩ := h
  exact hwrote.changes.grows hroot

/-- What is written keeps the contents of the schema files. -/
theorem Workspace.Writes.spares {files : List GeneratedFile} (h : w.Writes files now)
    (hroot : w.files.HasDirectory []) (hspares : now.files.Spares now.output.written g)
    {m : Location} (hm : m ∈ g.locations) : now.files.contents? m = w.files.contents? m := by
  obtain ⟨placed, -, hwrote⟩ := h
  refine hwrote.changes.contents m fun hmem => ?_
  obtain ⟨p, hp, rfl⟩ := List.mem_map.1 hmem
  obtain ⟨f, hf, hlocation⟩ := List.mem_map.1 hm
  refine hspares p.1.path ?_ f hf ?_
  · rw [hwrote.written]
    exact List.mem_append_right _ (List.mem_map_of_mem hp)
  · rw [hlocation]
    exact hwrote.reaches hroot p hp

namespace SourceFilesLemmas

open Run EventOrderLemmas GeneratedRunsLemmas

variable {plan : Plan σ}

theorem source?_eq (plan : Plan σ) (fs : FileSystem) (schemaRoot path : Path) :
    plan.source? fs schemaRoot path =
      if plan.skip.skips (skipName fs schemaRoot path) then none
      else (fs.canonicalize (schemaRoot.join path)).toOption.filter
        fun l => (fs.contents? l).isSome := by
  unfold Plan.source? RootFile.source? RootFile.of skipName
  cases fs.canonicalize path <;> rfl

variable {s after : Session σ} {path : Path} {fs : FileSystem} {paths : List Path}
  {fs' : FileSystem}

theorem catalog_of_files {files : List SchemaFile}
    (h : (files.forM (file plan)).run s = (.ok (), after)) : after.catalog = s.catalog := by
  induction files generalizing s with
  | nil => exact congrArg Session.catalog (Prod.mk.inj h).2.symm
  | cons f rest ih =>
    obtain ⟨_, now, hfile, hrest⟩ := run_bind_eq_ok h
    exact (ih hrest).trans (takes_of_file hfile).catalog

/-- A root file that is visited is a schema file, and the visit stands for all that it has
loaded. -/
theorem source_of_visit {v : Visit} (hs : Settled s.workspace.files s.catalog)
    (h : s.visit? plan path = some v) :
    Settled s.workspace.files v.catalog ∧ v.catalog.root = s.catalog.root ∧
      plan.source? s.workspace.files s.catalog.root path = some v.file.location ∧
      v.file.location ∈ v.catalog.graph.locations ∧
      ∀ m ∈ v.catalog.graph.locations,
        m ∈ s.catalog.graph.locations ∨ ∃ f ∈ v.files, f.location = m := by
  obtain ⟨hsettled, hroot, -, hload⟩ := hs.load path
  unfold Session.visit? at h
  split at h
  · cases h
  next hskip =>
  rcases hrun : (Catalog.load s.workspace.files path).run s.catalog with ⟨(e | id), catalog⟩
  · rw [hrun] at h
    cases h
  rw [hrun] at h hsettled hroot hload
  obtain ⟨f, hf, rfl⟩ := Option.map_eq_some_iff.1 h
  obtain ⟨l, hl, hplain, hfound, honly⟩ := hload id rfl
  have hlocation : f.location = l := by
    have hat := (hsettled.built.find?_path_eq_some_iff hplain).1 hfound
    rw [Graph.location?_of_file? hf] at hat
    exact Option.some.inj hat
  have hmem := Graph.location?_of_file? hf
  refine ⟨hsettled, hroot, ?_, List.mem_of_getElem? hmem, fun m hm => ?_⟩
  · obtain ⟨d, ⟨contents, text, hread, -⟩, -⟩ := hsettled.built.holds_of_file? hf
    rw [FileSystem.readAt_eq_ok_iff, hlocation] at hread
    rw [source?_eq, if_neg hskip, hl, hlocation]
    simp [Except.toOption, hread]
  · refine (honly m hm).imp_right fun hsteps => ?_
    rw [← hlocation, ← hroot] at hsteps
    rcases reflTransGen_iff_eq_or_transGen.1 hsteps with rfl | hsteps
    · exact ⟨f, List.mem_append_right _ (List.mem_singleton_self f), rfl⟩
    · obtain ⟨j, hj, hat⟩ := ((hsettled.built.tracked hf).reaches m).1 hsteps
      obtain ⟨f', hf', rfl⟩ := Graph.exists_file_of_location? hat
      exact ⟨f', List.mem_append_left _ (List.mem_filterMap.2 ⟨j, hj, hf'⟩), rfl⟩

/-- A root file that is passed over is none, and nothing has changed. -/
theorem source_of_missed (hs : Settled s.workspace.files s.catalog) (h : s.visit? plan path = none)
    (hok : (missed plan path s).1 = .ok ()) :
    (missed plan path s).2.1 = s.catalog ∧ s.leavesOut plan path = true ∧
      plan.source? s.workspace.files s.catalog.root path = none := by
  obtain ⟨hsettled, -, -, hload⟩ := hs.load path
  unfold Session.visit? at h
  unfold Session.leavesOut
  rw [source?_eq]
  unfold missed at hok ⊢
  by_cases hskip : plan.skip.skips (skipName s.workspace.files s.catalog.root path) = true
  · rw [if_pos hskip, if_pos hskip, hskip]
    exact ⟨rfl, rfl, rfl⟩
  rw [if_neg hskip] at h hok
  rw [if_neg hskip, if_neg hskip, Bool.eq_false_iff.2 hskip, Bool.false_or]
  rcases hrun : (Catalog.load s.workspace.files path).run s.catalog with ⟨(e | id), catalog⟩
  · rw [hrun] at hok
    cases e with
    | unreadable =>
      obtain ⟨rfl, hnone⟩ := Catalog.load_advisory hrun rfl
      refine ⟨rfl, rfl, ?_⟩
      cases hplace : s.workspace.files.canonicalize (s.catalog.root.join path) with
      | error cause => rfl
      | ok l =>
        rw [hplace] at hnone
        have hcontents : s.workspace.files.contents? l = none := hnone
        simp [Except.toOption, Option.filter, hcontents]
    | _ => cases hok
  -- A file that was loaded is in the graph, so there is a visit.
  · rw [hrun] at h hsettled hload
    obtain ⟨l, -, hplain, hfound, -⟩ := hload id rfl
    have hat := (hsettled.built.find?_path_eq_some_iff hplain).1 hfound
    obtain ⟨f, hf, -⟩ := Graph.exists_file_of_location? hat
    have hvisit : (catalog.graph.file? id).map (fun f => (⟨catalog, f⟩ : Visit)) = none := h
    rw [show catalog.graph.file? id = some f from hf] at hvisit
    cases hvisit

section Steps

variable {units : Output → Graph → SchemaFile → List GeneratedFile}
  (hgenerates : plan.target.Generates units) {fs : FileSystem} {s after : Session σ}
  (htidy : s.workspace.files.IsTidy) (hclosed : s.workspace.output.current = none)
  (hs : Settled s.workspace.files s.catalog) (hbefore : fs.Grows s.workspace.files)

include hgenerates htidy hclosed hs hbefore

theorem covers_rootFile {path : Path} (hrun : (rootFile plan path).run s = (.ok (), after))
    (hspares : after.workspace.files.Spares after.workspace.output.written after.catalog.graph)
    (hsame : RootFile.of s.workspace.files s.catalog.root path =
      RootFile.of fs s.catalog.root path) :
    s.Covers plan fs [path] after := by
  have hsource := plan.source?_grows hbefore hsame
  have halong {β : Type} (see : Path → Session σ → List β) :
      along (rootFile plan) see [path] s = see path s := by
    rw [along, hrun]
    exact List.append_nil _
  cases hvisit : s.visit? plan path with
  | none =>
    rw [rootFile_run_none hvisit] at hrun
    obtain ⟨hok, rfl⟩ := Prod.mk.inj hrun
    obtain ⟨hcatalog, hleft, hnone⟩ := source_of_missed hs hvisit hok
    rw [hsource] at hnone
    rw [hcatalog] at *
    refine ⟨hs, rfl, ?_, fun p hp l hl => ?_, fun m hm => .inl hm⟩
    · rw [halong, leftAt, hleft, List.countP_singleton, hnone]
      rfl
    · obtain rfl := List.mem_singleton.1 hp
      rw [hnone] at hl
      cases hl
  | some v =>
    obtain ⟨hsettled, hroot, hplace, hmem, honly⟩ := source_of_visit hs hvisit
    rw [hsource] at hplace
    rw [rootFile_run_some hvisit] at hrun
    have hcatalog : after.catalog = v.catalog := catalog_of_files hrun
    have hadvance := files_compose (composes_advances hgenerates) hrun
    have hwrites := hadvance.writes hclosed after.catalog.graph List.prefix_rfl
    have hgrows := hwrites.grows htidy.root
    have hkept : ∀ m ∈ v.catalog.graph.locations,
        after.workspace.files.contents? m = s.workspace.files.contents? m := by
      rw [← hcatalog]
      exact fun m hm => hwrites.spares htidy.root hspares hm
    refine ⟨?_, ?_, ?_, fun p hp l hl => ?_, fun m hm => ?_⟩
    · rw [hcatalog]
      exact hsettled.grows hgrows hkept
    · rw [hcatalog, hroot]
    · rw [halong, leftAt, not_leavesOut_of_visit hvisit, List.countP_singleton, hplace]
      rfl
    · obtain rfl := List.mem_singleton.1 hp
      rw [hplace] at hl
      obtain rfl := Option.some.inj hl
      exact hcatalog ▸ hmem
    · rw [hcatalog] at hm
      refine (honly m hm).imp_right fun hfile => ?_
      refine ⟨v, ?_, ⟨path, List.mem_singleton_self path, hplace⟩, hfile⟩
      rw [halong, visitAt, hvisit]
      exact List.mem_singleton_self v

end Steps

theorem covers_nil (hs : Settled s.workspace.files s.catalog) : s.Covers plan fs [] s :=
  ⟨hs, rfl, rfl, nofun, fun _ hm => .inl hm⟩

theorem covers_append {middle : Session σ} {more : List Path}
    (hrun : (paths.forM (rootFile plan)).run s = (.ok (), middle))
    (hgrows : middle.catalog.graph.files <+: after.catalog.graph.files)
    (h : s.Covers plan fs paths middle) (h' : middle.Covers plan fs more after) :
    s.Covers plan fs (paths ++ more) after := by
  have halong {β : Type} (see : Path → Session σ → List β) :
      along (rootFile plan) see (paths ++ more) s =
        along (rootFile plan) see paths s ++ along (rootFile plan) see more middle := by
    rw [RootFilesLemmas.along_append, hrun]
  obtain ⟨-, hroot, hleft, hfound, honly⟩ := h
  obtain ⟨hsettled, hroot', hleft', hfound', honly'⟩ := h'
  rw [hroot] at hroot' hleft' hfound' honly'
  refine ⟨hsettled, hroot', ?_, fun path hpath l hl => ?_, fun m hm => ?_⟩
  · rw [halong, List.length_append, hleft, hleft', List.countP_append]
  · rcases List.mem_append.1 hpath with hpath | hpath
    · exact (hgrows.map _).subset (hfound path hpath l hl)
    · exact hfound' path hpath l hl
  · rw [halong]
    rcases honly' m hm with hm | ⟨v, hv, ⟨path, hpath, hplace⟩, hfile⟩
    · refine (honly m hm).imp_right ?_
      rintro ⟨v, hv, ⟨path, hpath, hplace⟩, hfile⟩
      exact ⟨v, List.mem_append_left _ hv, ⟨path, List.mem_append_left _ hpath, hplace⟩, hfile⟩
    · exact .inr ⟨v, List.mem_append_right _ hv, ⟨path, List.mem_append_right _ hpath, hplace⟩,
        hfile⟩

theorem canonicalize_between {now : FileSystem} (hbefore : fs.Grows now) (hafter : now.Grows fs')
    {p : Path} (h : (fs'.canonicalize p).toOption = (fs.canonicalize p).toOption) :
    (now.canonicalize p).toOption = (fs.canonicalize p).toOption := by
  cases hstart : fs.canonicalize p with
  | ok l => rw [hbefore.canonicalize hstart]
  | error cause =>
    rw [hstart] at h
    cases hnow : now.canonicalize p with
    | error => rfl
    | ok l =>
      rw [hafter.canonicalize hnow] at h
      cases h

theorem rootFile_between {now : FileSystem} (hbefore : fs.Grows now) (hafter : now.Grows fs')
    {schemaRoot : Path} (h : RootFile.of fs' schemaRoot path = RootFile.of fs schemaRoot path) :
    RootFile.of now schemaRoot path = RootFile.of fs schemaRoot path := by
  have hnamed := canonicalize_between hbefore hafter (congrArg RootFile.named h)
  have hplace := canonicalize_between hbefore hafter (congrArg RootFile.place h)
  rw [RootFile.of, RootFile.of, hnamed, hplace]

variable {units : Output → Graph → SchemaFile → List GeneratedFile}

/-- What a run over root files leaves behind it can be told from where it ends. -/
theorem rootFiles_grow (h : plan.target.Generates units) (htidy : s.workspace.files.IsTidy)
    (hclosed : s.workspace.output.current = none)
    (hrun : (paths.forM (rootFile plan)).run s = (.ok (), after)) :
    s.workspace.files.Grows after.workspace.files ∧ after.workspace.files.IsTidy ∧
      s.workspace.output.written ⊆ after.workspace.output.written ∧
      s.catalog.graph.files <+: after.catalog.graph.files ∧
      after.workspace.output.current = none := by
  have hadvance := (rootFiles_advance h hrun).1
  obtain ⟨placed, -, hwrote⟩ := hadvance.writes hclosed after.catalog.graph List.prefix_rfl
  refine ⟨hwrote.changes.grows htidy.root, hwrote.changes.tidy htidy, ?_, hadvance.grows,
    hadvance.closes hclosed⟩
  rw [hwrote.written]
  exact List.subset_append_left _ _

/-- Going through the root files one by one. -/
theorem covers_rootFiles (h : plan.target.Generates units) (htidy : s.workspace.files.IsTidy)
    (hclosed : s.workspace.output.current = none) (hs : Settled s.workspace.files s.catalog)
    (hrun : (paths.forM (rootFile plan)).run s = (.ok (), after))
    (hspares : after.workspace.files.Spares after.workspace.output.written after.catalog.graph)
    (hbefore : fs.Grows s.workspace.files) (hafter : after.workspace.files.Grows fs')
    (hsame : ∀ path ∈ paths,
      RootFile.of fs' s.catalog.root path = RootFile.of fs s.catalog.root path) :
    s.Covers plan fs paths after := by
  induction paths generalizing s with
  | nil =>
    obtain rfl := (Prod.mk.inj hrun).2
    exact covers_nil hs
  | cons path rest ih =>
    have hsplit : (([path] ++ rest).forM (rootFile plan)).run s = (.ok (), after) := hrun
    obtain ⟨middle, hfirst, hrest⟩ := forM_append_ok hsplit
    obtain ⟨hgrows, hmiddle, -, -, hclosed'⟩ := rootFiles_grow h htidy hclosed hfirst
    obtain ⟨hgrows', -, hwritten, hgraph, -⟩ := rootFiles_grow h hmiddle hclosed' hrest
    have hpath : s.Covers plan fs [path] middle := by
      refine covers_rootFile h htidy hclosed hs hbefore ?_ (hspares.mono hgrows' hwritten hgraph) ?_
      · rw [← forM_run_singleton]
        exact hfirst
      · exact rootFile_between hbefore (hgrows.trans (hgrows'.trans hafter))
          (hsame path List.mem_cons_self)
    have hothers := ih hmiddle hclosed' hpath.settled hrest (hbefore.trans hgrows)
      fun path hmem => by
        rw [hpath.root]
        exact hsame path (List.mem_cons_of_mem _ hmem)
    exact covers_append hfirst hgraph hpath hothers

end SourceFilesLemmas

/-! ## 4. Whole runs -/

namespace SourceFilesLemmas

open Run EventOrderLemmas GeneratedRunsLemmas

variable {plan : Plan σ} {roots : List Path} {s : Session σ}

theorem filesOfRoot_of_rootFiles {fs fs' : FileSystem} {schemaRoot root : Path}
    (h : plan.rootFiles fs' schemaRoot root = plan.rootFiles fs schemaRoot root) :
    plan.filesOfRoot fs' root = plan.filesOfRoot fs root ∧
      ∀ path ∈ plan.filesOfRoot fs root,
        RootFile.of fs' schemaRoot path = RootFile.of fs schemaRoot path := by
  unfold Plan.rootFiles at h
  have hpaths : plan.filesOfRoot fs' root = plan.filesOfRoot fs root := by
    have hmap := congrArg (List.map RootFile.path) h
    rw [List.map_map, List.map_map] at hmap
    simpa only [Function.comp_def, RootFile.of, List.map_id'] using hmap
  rw [hpaths] at h
  exact ⟨hpaths, List.map_inj_left.1 h⟩

/-- A run takes up the root files that its roots stand for, and covers them. -/
theorem covers_tried {units : Output → Graph → SchemaFile → List GeneratedFile}
    (hworks : plan.target.Works) (hgenerates : plan.target.Generates units)
    (htidy : s.workspace.files.IsTidy) (hclosed : s.workspace.output.current = none)
    (hs : Settled s.workspace.files s.catalog)
    (hroots : (roots.forM (Run.root plan)).run s = (.ok (), s.walked plan roots))
    (hundisturbed : s.Undisturbed plan roots) :
    s.tried plan roots = roots.flatMap (plan.filesOfRoot s.workspace.files) ∧
      s.Covers plan s.workspace.files (roots.flatMap (plan.filesOfRoot s.workspace.files))
        (s.walked plan roots) := by
  have htried := (Session.retraces plan roots s).same
  rw [hroots] at htried
  obtain ⟨-, hwalked, -⟩ := rootFiles_grow hgenerates htidy hclosed htried.symm
  have hsame (root : Path) (hroot : root ∈ roots) :=
    filesOfRoot_of_rootFiles (hundisturbed.steady root hroot)
  have heq := Session.tried_eq hworks.operates htidy hwalked
    (fun root hroot => (hsame root hroot).1) htidy (.inl hroots) (.refl _) (.refl _)
  rw [heq] at htried
  refine ⟨heq, covers_rootFiles hgenerates htidy hclosed hs htried.symm hundisturbed.sources
    (.refl _) (.refl _) ?_⟩
  intro path hpath
  obtain ⟨root, hroot, hmem⟩ := List.mem_flatMap.1 hpath
  exact (hsame root hroot).2 path hmem

end SourceFilesLemmas

/-- The files of a visit are those that the visited file reaches. -/
theorem Visit.reaches (hbuilt : Built fs schemaRoot g) {v : Visit}
    (hgrows : v.catalog.graph.files <+: g.files) {i : FileId}
    (hi : v.catalog.graph.file? i = some v.file) {f : SchemaFile} (hf : f ∈ v.files) :
    (∃ j, g.file? j = some f) ∧
      ReflTransGen (Imports fs schemaRoot) v.file.location f.location := by
  rcases List.mem_append.1 hf with hdep | hself
  · obtain ⟨j, hj, hfile⟩ := List.mem_filterMap.1 hdep
    have hat := Graph.file?_mono hgrows hfile
    have hreaches := (hbuilt.tracked (Graph.file?_mono hgrows hi)).reaches f.location
    exact ⟨⟨j, hat⟩, (hreaches.2 ⟨j, hj, Graph.location?_of_file? hat⟩).to_reflTransGen⟩
  · obtain rfl := List.mem_singleton.1 hself
    exact ⟨⟨i, Graph.file?_mono hgrows hi⟩, .refl⟩

/-- What a run that leaves its schema files alone has read and told. -/
theorem Session.gathers {units : Output → Graph → SchemaFile → List GeneratedFile}
    (hworks : plan.target.Works) (hgenerates : plan.target.Generates units)
    (htidy : s.workspace.files.IsTidy) (hclosed : s.workspace.output.current = none)
    (hs : Settled s.workspace.files s.catalog)
    (horderly : s.catalog.IsOrderly) (hempty : s.catalog.graph = .empty) (hfresh : s.handled = [])
    (hroots : (roots.forM (Run.root plan)).run s = (.ok (), s.walked plan roots))
    (hundisturbed : s.Undisturbed plan roots) : s.Gathers plan roots := by
  obtain ⟨htried, hcovers⟩ := covers_tried hworks hgenerates htidy hclosed hs hroots hundisturbed
  obtain ⟨hadvance, hvisits⟩ := Session.advances hgenerates hroots
  have hwrites := hadvance.writes hclosed (s.walked plan roots).catalog.graph List.prefix_rfl
  have hgrows := hwrites.grows htidy.root
  have hbuilt : Built (s.walked plan roots).workspace.files s.catalog.root
      (s.walked plan roots).catalog.graph := by
    rw [← hcovers.root]
    exact hcovers.settled.built
  -- A session starts with nothing loaded, so all that is loaded belongs to a visit.
  have hvisited : ∀ m ∈ (s.walked plan roots).catalog.graph.locations,
      ∃ v ∈ s.visited plan roots,
        (∃ path ∈ roots.flatMap (plan.filesOfRoot s.workspace.files),
          plan.source? s.workspace.files s.catalog.root path = some v.file.location) ∧
          ∃ f ∈ v.files, f.location = m := by
    intro m hm
    rcases hcovers.only m hm with hold | hvisit
    · rw [hempty] at hold
      cases hold
    · rw [Session.visited, Run.seen_eq_along, htried]
      exact hvisit
  have hreaches : ∀ v ∈ s.visited plan roots, ∀ f ∈ v.files,
      (∃ j, (s.walked plan roots).catalog.graph.file? j = some f) ∧
        ReflTransGen (Imports (s.walked plan roots).workspace.files s.catalog.root)
          v.file.location f.location := by
    intro v hv f hf
    obtain ⟨-, i, hi⟩ := (Session.orderly_run horderly).2 v hv
    exact Visit.reaches hbuilt (hvisits v hv) hi hf
  refine ⟨hbuilt, fun m hm => hwrites.spares htidy.root hundisturbed.sources hm, hgrows,
    fun m => ⟨fun hm => ?_, ?_⟩, fun f => ⟨?_, ?_⟩, ?_⟩
  · obtain ⟨v, hv, ⟨path, hpath, hplace⟩, f, hf, rfl⟩ := hvisited m hm
    exact ⟨path, hpath, v.file.location, hplace, (hreaches v hv f hf).2⟩
  · rintro ⟨path, hpath, l, hl, hsteps⟩
    obtain ⟨i, hi⟩ := List.getElem?_of_mem (hcovers.found path hpath l hl)
    obtain ⟨f, hf, rfl⟩ := Graph.exists_file_of_location? hi
    obtain ⟨j, f', hf', rfl⟩ := hbuilt.loaded_of_reaches hf hsteps
    exact List.mem_of_getElem? (Graph.location?_of_file? hf')
  · exact Session.mem_graph_of_told hgenerates horderly hroots
  · rintro ⟨i, hi⟩
    have hm := List.mem_of_getElem? (Graph.location?_of_file? hi)
    obtain ⟨v, hv, -, f', hf', hlocation⟩ := hvisited f.location hm
    obtain ⟨j, hj⟩ := (hreaches v hv f' hf').1
    obtain rfl := hbuilt.location?_inj (hlocation ▸ Graph.location?_of_file? hj)
      (Graph.location?_of_file? hi)
    obtain rfl := Option.some.inj (hj.symm.trans hi)
    exact Session.mem_told_of_visit hgenerates horderly hroots hv hf'
  · have hcount := hadvance.stats
    rw [hfresh, EventOrderLemmas.todo_nil] at hcount
    rw [hcount, ← hcovers.left, Session.leftOut, Run.seen_eq_along, htried]
    rfl

end SchemaGen
