import SchemaGen.Proofs.SteadyLoading
import Mathlib.Data.List.Flatten

/-!
# Runs where files are missing

Two sessions have loaded, handled and counted the same, and the file system of one of them lags
behind that of the other. Whatever the one in front does for its roots, the other one can do as
well: files are opened in both, the same schema files are loaded and the same root files taken up,
as long as nothing is written to the places of schema files and roots stay what they are.

Results:
1. `Rust.carries_handle`: the target, event by event.
2. `LaggingRunsLemmas.rootFile_follows`, `LaggingRunsLemmas.rootFiles_follow`: root files.
3. `LaggingRunsLemmas.rereads_tried`: roots that stay what they are.
4. `Session.walks_behind`: whole walks.
-/

namespace SchemaGen

open scoped List

variable {σ : Type}

/-! ## Definitions -/

/-- The files of `w` lag behind those of `w'`, and its handle has opened no other paths. -/
structure Workspace.Lags (w w' : Workspace σ) : Prop where
  files : w.files.Lags w'.files
  blank : w.output.blank = w'.output.blank
  current : w.output.current = w'.output.current
  written : w.output.written ⊆ w'.output.written

/-- Two sessions that differ in their workspaces only, where one lags behind the other. -/
structure Session.Lags (s s' : Session σ) : Prop where
  catalog : s.catalog = s'.catalog
  workspace : s.workspace.Lags s'.workspace
  handled : s.handled = s'.handled
  stats : s.stats = s'.stats

/-- A run reads what could be read in `fs`: when all roots have been taken up, they stand for the
same root files as in `fs`, and nothing has been written to the places of schema files. -/
structure Session.ReadsLike (plan : Plan σ) (fs : FileSystem) (roots : List Path) (s : Session σ) :
    Prop where
  steady : ∀ root ∈ roots,
    plan.rootFiles (s.walked plan roots).workspace.files s.catalog.root root =
      plan.rootFiles fs s.catalog.root root
  sources : (s.walked plan roots).workspace.files.Spares
    (s.walked plan roots).workspace.output.written (s.walked plan roots).catalog.graph

/-- Going through root files, the session finds for each of them what there is in `fs`. -/
structure Session.Rereads (plan : Plan σ) (fs : FileSystem) (paths : List Path)
    (s after : Session σ) : Prop where
  ran : (paths.forM (Run.rootFile plan)).run s = (.ok (), after)
  tidy : s.workspace.files.IsTidy
  closed : s.workspace.output.current = none
  orderly : s.catalog.IsOrderly
  remembers : s.catalog.Remembers
  grows : fs.Grows s.workspace.files
  spares : after.workspace.files.Spares after.workspace.output.written after.catalog.graph
  kept : ∀ m ∈ after.catalog.graph.locations,
    after.workspace.files.contents? m = fs.contents? m
  same : ∀ path ∈ paths, RootFile.of after.workspace.files s.catalog.root path =
    RootFile.of fs s.catalog.root path

/-! ## 1. Targets -/

namespace Workspace.Lags

variable {w w' : Workspace σ} (h : w.Lags w')

include h

theorem settled : w.settled.Lags w'.settled := by
  unfold Workspace.settled
  rw [h.current]
  cases w'.output.current with
  | none => exact h.files
  | some file => exact h.files.append _ _ _ _

theorem push (text : String) : (w.push text).Lags (w'.push text) := by
  obtain ⟨-, -, -, hcapacity, -⟩ := Output.mk.inj h.blank
  unfold Workspace.push
  rw [h.current, hcapacity]
  cases w'.output.current with
  | none => exact h
  | some file => exact ⟨h.files.append _ _ _ _, h.blank, rfl, h.written⟩

theorem type (lines : List String) : (w.type lines).Lags (w'.type lines) := by
  induction lines generalizing w w' with
  | nil => exact h
  | cons line rest ih => exact ih ((h.push line).push "\n")

end Workspace.Lags

namespace Emit

theorem carries_close : CarriesOver Workspace.Lags (close : Emit σ Unit) := by
  intro w w' _ now' h hrun
  rw [close_run] at hrun
  obtain rfl := (Prod.mk.inj hrun).2
  exact ⟨_, close_run w, h.settled, h.blank, rfl, h.written⟩

theorem carries_line (text : String) : CarriesOver Workspace.Lags (line text : Emit σ Unit) := by
  intro w w' _ now' h hrun
  rw [line_run] at hrun
  cases hcurrent : w'.output.current with
  | none =>
    rw [hcurrent] at hrun
    cases hrun
  | some file =>
    rw [hcurrent] at hrun
    obtain rfl := (Prod.mk.inj hrun).2
    refine ⟨w.type [text], ?_, h.type [text]⟩
    rw [line_run, h.current, hcurrent]

theorem steady_carries :
    Steady fun _ (step : Emit σ _) => CarriesOver Workspace.Lags step :=
  ⟨.pure, fun _ => .throw _, .bind, carries_line, carries_close⟩

theorem carries_prepare (path : Path) (source : Option SchemaFile) :
    CarriesOver Workspace.Lags (prepare path source : Emit σ Unit) := by
  intro w w' _ now' h hrun
  rw [prepare_run] at hrun
  rcases hopening : (Disk.opening path).run w'.settled with ⟨(e | l), files'⟩
  · rw [hopening] at hrun
    cases hrun
  · rw [hopening] at hrun
    obtain rfl := (Prod.mk.inj hrun).2
    obtain ⟨files, hfiles, hlags⟩ := Disk.carries_opening path _ _ l files' h.settled hopening
    obtain ⟨-, -, htool, -⟩ := Output.mk.inj h.blank
    have hhead : w.output.head source = w'.output.head source := by
      unfold Output.head Output.marker
      rw [htool]
    rw [prepare_run, hfiles, hhead]
    refine ⟨_, rfl, Workspace.Lags.type ?_ _⟩
    exact ⟨hlags, h.blank, rfl, List.append_subset.2
      ⟨List.subset_append_of_subset_left _ h.written, List.subset_append_right _ _⟩⟩

end Emit

theorem Rust.carries_handle (g : Graph) (f : SchemaFile) (e : Event) :
    CarriesOver Workspace.Lags (handle g f e) := by
  refine Emit.steady_carries.rust fun he w w' a now' h hrun => ?_
  subst he
  rw [handle_beginFile_run] at hrun ⊢
  obtain ⟨hroot, hextension, -⟩ := Output.mk.inj h.blank
  rw [hroot, hextension]
  have hlags : ({ w with notes := w.notes ++ childrenOf f } : Workspace _).Lags
      { w' with notes := w'.notes ++ childrenOf f } :=
    ⟨h.files, h.blank, h.current, h.written⟩
  exact Emit.carries_prepare _ (some f) _ _ a now' hlags hrun

/-! ## 2. Root files -/

namespace LaggingRunsLemmas

open Run EventOrderLemmas GeneratedRunsLemmas SourceFilesLemmas RootFilesLemmas SteadyLoadingLemmas

variable {plan : Plan σ}

section Files

variable (hcarries : ∀ g f e, CarriesOver Workspace.Lags (plan.target.handle g f e))

include hcarries

theorem carries_tell (f : SchemaFile) (e : Event) : CarriesOver Session.Lags (tell plan f e) := by
  intro s s' _ now' h hrun
  rw [tell_run] at hrun
  rcases hhandle : (plan.target.handle s'.catalog.graph f e).run s'.workspace with ⟨(err | _), w'⟩
  · rw [hhandle] at hrun
    cases hrun
  · rw [hhandle] at hrun
    obtain rfl := (Prod.mk.inj hrun).2
    obtain ⟨w, hw, hlags⟩ := hcarries _ f e _ _ _ _ h.workspace hhandle
    refine ⟨{ s with workspace := w, stats := s.stats.count e }, ?_, h.catalog, hlags,
      h.handled, ?_⟩
    · rw [tell_run, h.catalog, hw]
    · exact congrArg (Stats.count · e) h.stats

theorem carries_file (f : SchemaFile) : CarriesOver Session.Lags (file plan f) := by
  intro s s' _ now' h hrun
  rw [file_run] at hrun ⊢
  rw [h.handled]
  split at hrun
  · next hhandled =>
    obtain rfl := (Prod.mk.inj hrun).2
    exact ⟨s, if_pos hhandled, h⟩
  next hhandled =>
  rw [if_neg hhandled]
  split at hrun
  · next hrefuses =>
    obtain rfl := (Prod.mk.inj hrun).2
    refine ⟨_, if_pos hrefuses, h.catalog, h.workspace, rfl, ?_⟩
    exact congrArg Stats.skip h.stats
  next hrefuses =>
  rw [if_neg hrefuses]
  rcases htell : ((Event.ofFile f).forM (tell plan f)).run s' with ⟨(err | _), after'⟩
  · rw [htell] at hrun
    cases hrun
  · rw [htell] at hrun
    obtain rfl := (Prod.mk.inj hrun).2
    obtain ⟨after, hafter, hlags⟩ :=
      CarriesOver.forM (carries_tell hcarries f) (Event.ofFile f) s s' _ after' h htell
    rw [hafter]
    refine ⟨_, rfl, hlags.catalog, hlags.workspace, ?_, hlags.stats⟩
    exact congrArg (· ++ [f.path]) hlags.handled

end Files

variable {path : Path} {s now : Session σ} {fs : FileSystem}

/-- What a root file that a run does not stop at does to the catalog. -/
theorem load_of_rootFile (h : (rootFile plan path).run s = (.ok (), now))
    (hskip : ¬ plan.skip.skips (skipName s.workspace.files s.catalog.root path) = true) :
    ∃ result, (Catalog.load s.workspace.files path).run s.catalog = (result, now.catalog) ∧
      ∀ e, result = .error e → e.isAdvisory = true := by
  rcases hload : (Catalog.load s.workspace.files path).run s.catalog with ⟨result, catalog⟩
  cases hvisit : s.visit? plan path with
  | none =>
    rw [rootFile_run_none hvisit] at h
    obtain ⟨hok, rfl⟩ := Prod.mk.inj h
    unfold missed at hok ⊢
    rw [if_neg hskip, hload] at hok
    rw [if_neg hskip, hload]
    cases result with
    | ok id => exact ⟨_, rfl, nofun⟩
    | error e =>
      cases e with
      | unreadable =>
        refine ⟨_, rfl, fun e he => ?_⟩
        cases he
        rfl
      | _ => cases hok
  | some v =>
    rw [rootFile_run_some hvisit] at h
    have hcatalog : now.catalog = v.catalog := catalog_of_files h
    unfold Session.visit? at hvisit
    rw [if_neg hskip, hload] at hvisit
    cases result with
    | error e => cases hvisit
    | ok id =>
      obtain ⟨f, -, rfl⟩ := Option.map_eq_some_iff.1 hvisit
      rw [hcatalog]
      exact ⟨_, rfl, nofun⟩

theorem skipName_congr {fs' : FileSystem} {schemaRoot : Path}
    (h : RootFile.of fs schemaRoot path = RootFile.of fs' schemaRoot path) :
    skipName fs schemaRoot path = skipName fs' schemaRoot path := by
  have hskipName (fs : FileSystem) : skipName fs schemaRoot path =
      (((schemaRoot.below? path).or
        ((RootFile.of fs schemaRoot path).named.bind (schemaRoot.below? ·.path))).getD
          path).slashed := by
    unfold skipName RootFile.of
    cases fs.canonicalize path <;> rfl
  rw [hskipName, hskipName, h]

/-- What loads keep, a root file keeps. -/
theorem orderly_rootFile (hs : s.catalog.IsOrderly) (hknown : s.catalog.Remembers)
    (h : (rootFile plan path).run s = (.ok (), now)) :
    now.catalog.IsOrderly ∧ now.catalog.Remembers ∧ now.catalog.root = s.catalog.root := by
  by_cases hskip : plan.skip.skips (skipName s.workspace.files s.catalog.root path) = true
  · rw [rootFile_run, if_pos hskip] at h
    obtain rfl := (Prod.mk.inj h).2
    exact ⟨hs, hknown, rfl⟩
  · obtain ⟨result, hload, -⟩ := load_of_rootFile h hskip
    obtain ⟨seen, hgrown⟩ := hs.grown
    have horderly := hs.load s.workspace.files path
    have hremembers := hknown.load hs s.workspace.files path
    have hroot := (hgrown.load s.workspace.files path).2
    rw [hload] at horderly hremembers hroot
    exact ⟨horderly, hremembers, hroot⟩

/-- If the session in front takes up a root file, so does the other one, and both visit it or leave
it out. -/
theorem rootFile_follows (hcarries : ∀ g f e, CarriesOver Workspace.Lags (plan.target.handle g f e))
    {s' now' : Session σ} (h : s.Lags s') (hs : s.catalog.IsOrderly) (hknown : s.catalog.Remembers)
    (hfile : RootFile.of s.workspace.files s.catalog.root path =
      RootFile.of s'.workspace.files s.catalog.root path)
    (hrun : (rootFile plan path).run s' = (.ok (), now'))
    (hsame : ∀ m ∈ now'.catalog.graph.locations,
      s.workspace.files.contents? m = s'.workspace.files.contents? m) :
    ∃ now, (rootFile plan path).run s = (.ok (), now) ∧ now.Lags now' ∧
      s.visit? plan path = s'.visit? plan path := by
  have hskips := skipName_congr hfile
  by_cases hskip : plan.skip.skips (skipName s.workspace.files s.catalog.root path) = true
  · rw [rootFile_run, ← h.catalog, ← hskips, if_pos hskip] at hrun
    obtain rfl := (Prod.mk.inj hrun).2
    rw [rootFile_run, if_pos hskip, Session.visit?, Session.visit?, ← h.catalog, ← hskips,
      if_pos hskip, if_pos hskip]
    exact ⟨_, rfl, ⟨rfl, h.workspace, h.handled, congrArg Stats.skip h.stats⟩, rfl⟩
  · obtain ⟨result, hload, hfine⟩ := load_of_rootFile hrun (by rwa [← h.catalog, ← hskips])
    rw [← h.catalog] at hload
    obtain ⟨result', hload', hresult, hfine'⟩ := Catalog.load_follows h.workspace.files hs hknown
      (congrArg RootFile.place hfile) hload hfine hsame
    rw [rootFile_run, ← h.catalog, ← hskips, if_neg hskip, hload] at hrun
    rw [rootFile_run, if_neg hskip, Session.visit?, Session.visit?, ← h.catalog, ← hskips,
      if_neg hskip, if_neg hskip, hload, hload']
    cases result with
    | ok id =>
      cases result' with
      | error e => cases hresult
      | ok id' =>
        obtain rfl := Option.some.inj hresult
        have hlags : ({ s with catalog := now'.catalog } : Session σ).Lags
            { s' with catalog := now'.catalog } := ⟨rfl, h.workspace, h.handled, h.stats⟩
        obtain ⟨now, hnow, hnowLags⟩ :=
          CarriesOver.forM (carries_file hcarries) _ _ _ () now' hlags hrun
        exact ⟨now, hnow, hnowLags, rfl⟩
    | error e =>
      cases result' with
      | ok id => cases hresult
      | error e' =>
        have hunreadable := hfine e rfl
        have hunreadable' := hfine' e' rfl
        cases e with
        | unreadable =>
          cases e' with
          | unreadable =>
            have hnow := (Prod.mk.inj hrun).2
            refine ⟨_, rfl, ?_, rfl⟩
            rw [← hnow]
            exact ⟨rfl, h.workspace, h.handled, congrArg Stats.skip h.stats⟩
          | _ => cases hunreadable'
        | _ => cases hunreadable

theorem canonicalize_behind {now now' : FileSystem} (hgrows : fs.Grows now) (hlags : now.Lags now')
    {p : Path} (h : (now'.canonicalize p).toOption = (fs.canonicalize p).toOption) :
    (now.canonicalize p).toOption = (now'.canonicalize p).toOption := by
  cases hnow : now.canonicalize p with
  | ok l => rw [hlags.canonicalize hnow]
  | error cause =>
    cases hstart : fs.canonicalize p with
    | ok l =>
      rw [hgrows.canonicalize hstart] at hnow
      cases hnow
    | error cause' =>
      rw [h, hstart]
      rfl

/-- A root file that is in front what it was at the start is the same behind. -/
theorem rootFile_behind {now now' : FileSystem} (hgrows : fs.Grows now) (hlags : now.Lags now')
    {schemaRoot : Path} (h : RootFile.of now' schemaRoot path = RootFile.of fs schemaRoot path) :
    RootFile.of now schemaRoot path = RootFile.of now' schemaRoot path := by
  have hnamed := canonicalize_behind hgrows hlags (congrArg RootFile.named h)
  have hplace := canonicalize_behind hgrows hlags (congrArg RootFile.place h)
  rw [RootFile.of, RootFile.of, hnamed, hplace]

section Steps

variable {units : Output → Graph → SchemaFile → List GeneratedFile}
  (hgenerates : plan.target.Generates units)

include hgenerates

variable {s : Session σ}

/-- A session that rereads root files rereads the first and then the others. -/
theorem rereads_cons {fs : FileSystem} {path : Path} {rest : List Path} {after : Session σ}
    (h : s.Rereads plan fs (path :: rest) after) :
    ∃ now, (rootFile plan path).run s = (.ok (), now) ∧ now.Rereads plan fs rest after ∧
      RootFile.of s.workspace.files s.catalog.root path = RootFile.of fs s.catalog.root path ∧
      ∀ m ∈ now.catalog.graph.locations, m ∈ after.catalog.graph.locations ∧
        s.workspace.files.contents? m = fs.contents? m := by
  have hsplit : (([path] ++ rest).forM (rootFile plan)).run s = (.ok (), after) := h.ran
  obtain ⟨now, hfirst, hrest⟩ := forM_append_ok hsplit
  obtain ⟨hgrows, htidy, -, -, hclosed⟩ := rootFiles_grow hgenerates h.tidy h.closed hfirst
  obtain ⟨hgrows', -, -, hgraph, -⟩ := rootFiles_grow hgenerates htidy hclosed hrest
  rw [forM_run_singleton] at hfirst
  obtain ⟨horderly, hremembers, hroot⟩ := orderly_rootFile h.orderly h.remembers hfirst
  refine ⟨now, hfirst, ⟨hrest, htidy, hclosed, horderly, hremembers, h.grows.trans hgrows, h.spares,
    h.kept, ?_⟩, ?_, ?_⟩
  · intro path hmem
    rw [hroot]
    exact h.same path (List.mem_cons_of_mem _ hmem)
  · exact rootFile_between h.grows (hgrows.trans hgrows') (h.same path List.mem_cons_self)
  · -- From here to the end nothing is written where schema files lie.
    intro m hm
    have hend := locations_subset hgraph hm
    have hwrites := (rootFiles_advance hgenerates h.ran).1.writes h.closed _ List.prefix_rfl
    exact ⟨hend, (hwrites.spares h.tidy.root h.spares hend).symm.trans (h.kept m hend)⟩

/-- What the session behind has written spares the schema files that the one in front loads. -/
theorem contents_behind {base : Workspace σ} (htidy : base.files.IsTidy) {made : List GeneratedFile}
    {paths : List Path} {s' after' : Session σ} (hlags : s.Lags s')
    (hmade : base.Writes made s.workspace) (h : s'.Rereads plan base.files paths after')
    {m : Location} (hm : m ∈ after'.catalog.graph.locations) :
    s.workspace.files.contents? m = base.files.contents? m := by
  obtain ⟨hgrows, -, hwritten, -⟩ := rootFiles_grow hgenerates h.tidy h.closed h.ran
  refine hmade.spares htidy.root (fun p hp f hf hreaches => ?_) hm
  have hreaches' := (hlags.workspace.files.reaches_iff DiskChangesLemmas.steps_ne_nil).1 hreaches
  exact h.spares p (hwritten (hlags.workspace.written hp)) f hf (hreaches'.grows hgrows)

/-- Going through the root files one by one. -/
theorem rootFiles_follow (hcarries : ∀ g f e, CarriesOver Workspace.Lags (plan.target.handle g f e))
    {base : Workspace σ} (htidy : base.files.IsTidy) {made : List GeneratedFile} {paths : List Path}
    {s' after' : Session σ} (hlags : s.Lags s') (hmade : base.Writes made s.workspace)
    (h : s'.Rereads plan base.files paths after') :
    ∃ after, (paths.forM (rootFile plan)).run s = (.ok (), after) ∧ after.Lags after' ∧
      along (rootFile plan) (visitAt plan) paths s =
        along (rootFile plan) (visitAt plan) paths s' := by
  induction paths generalizing s s' made with
  | nil =>
    obtain rfl := (Prod.mk.inj h.ran).2
    exact ⟨s, rfl, hlags, rfl⟩
  | cons path rest ih =>
    obtain ⟨now', hrun', hrest, hfile, hkept⟩ := rereads_cons hgenerates h
    have hfile' := rootFile_behind (hmade.grows htidy.root) hlags.workspace.files hfile
    rw [← hlags.catalog] at hfile'
    obtain ⟨now, hrun, hnow, hvisit⟩ := rootFile_follows hcarries hlags (hlags.catalog ▸ h.orderly)
      (hlags.catalog ▸ h.remembers) hfile' hrun' fun m hm =>
        (contents_behind hgenerates htidy hlags hmade h (hkept m hm).1).trans (hkept m hm).2.symm
    have hsingle : ([path].forM (rootFile plan)).run s = (.ok (), now) := by
      rw [forM_run_singleton]
      exact hrun
    have hclosed := hlags.workspace.current.trans h.closed
    have hwrites := (rootFiles_advance hgenerates hsingle).1.writes hclosed _ List.prefix_rfl
    obtain ⟨after, hafter, hend, hvisits⟩ := ih hnow (hmade.trans hwrites) hrest
    refine ⟨after, ?_, hend, ?_⟩
    · rw [forM_run_cons, hrun]
      exact hafter
    · simp only [along, hrun, hrun', visitAt, hvisit]
      exact congrArg _ hvisits

end Steps

end LaggingRunsLemmas

/-! ## 3. Roots that stay what they are -/

open RootExpansionLemmas in
theorem FileSystem.Lags.listsMore {fs fs' : FileSystem} (h : fs.Lags fs') (htidy : fs.IsTidy)
    (htidy' : fs'.IsTidy) : fs.ListsMore fs' := by
  refine listsMore_of htidy htidy' h.sameLinks ?_ ?_
  · intro dir d access names hd hshape haccess name hname
    have hkind : fs.kind? d = some (.directory access) := by
      rw [kind?, hshape]
      rfl
    obtain ⟨names', hshape'⟩ := directory_iff_kind.2 (h.kind?_of_directory.1 hkind)
    refine mem_names_list ((h.reaches_iff DiskChangesLemmas.steps_ne_nil).1 hd) hshape' haccess ?_
    rw [← shape?_isSome_iff hshape']
    exact h.isSome ((shape?_isSome_iff hshape name).2 hname)
  · intro l n n' hnode hnode'
    have hkind := kind?_of_node? hnode
    have hkind' := kind?_of_node? hnode'
    rcases h.kinds l with heq | ⟨⟨hnone, -⟩, -⟩
    · rw [hkind, hkind'] at heq
      cases n <;> cases n' <;> first | trivial | cases heq
    · rw [hkind] at hnone
      cases hnone

namespace LaggingRunsLemmas

open Run EventOrderLemmas RootFilesLemmas RootExpansionLemmas

variable {plan : Plan σ}

/-- What roots stand for behind lies between what they stood for at the start and what they stand
for in front. -/
theorem filesOfRoot_behind {fs now now' : FileSystem} (htidy : fs.IsTidy) (hnow : now.IsTidy)
    (hnow' : now'.IsTidy) (hgrows : fs.Grows now) (hgrows' : fs.Grows now')
    (hlags : now.Lags now') {root : Path}
    (h : plan.filesOfRoot now' root = plan.filesOfRoot fs root) :
    plan.filesOfRoot now root = plan.filesOfRoot fs root := by
  have hdir' : now'.isDirectory root = fs.isDirectory root :=
    isDirectory_of_filesOfRoot hnow' hgrows' h
  have hdir : now.isDirectory root = fs.isDirectory root :=
    (hlags.isDirectory_eq root).trans hdir'
  unfold Plan.filesOfRoot at h ⊢
  rw [hdir'] at h
  rw [hdir]
  split
  · next hroot =>
    rw [if_pos hroot, if_pos hroot] at h
    refine List.Sublist.antisymm ?_ (filesWithin_more (hgrows.listsMore htidy hnow) _ root)
    rw [← h]
    exact filesWithin_more (hlags.listsMore hnow hnow') _ root
  · rfl

/-- A run that reads what could be read in `base` takes up the root files that there are in it. -/
theorem rereads_tried {units : Output → Graph → SchemaFile → List GeneratedFile}
    (hgenerates : plan.target.Generates units) (hworks : plan.target.Works) {base : Workspace σ}
    (htidy : base.files.IsTidy) {made : List GeneratedFile} {roots : List Path} {s : Session σ}
    (hmade : base.Writes made s.workspace) (hclosed : s.workspace.output.current = none)
    (horderly : s.catalog.IsOrderly) (hremembers : s.catalog.Remembers)
    (hroots : (roots.forM (Run.root plan)).run s = (.ok (), s.walked plan roots))
    (hreads : s.ReadsLike plan base.files roots) :
    s.tried plan roots = roots.flatMap (plan.filesOfRoot base.files) ∧
      s.Rereads plan base.files (roots.flatMap (plan.filesOfRoot base.files))
        (s.walked plan roots) := by
  have hwrites := (Session.advances hgenerates hroots).1.writes hclosed _ List.prefix_rfl
  have hwalked := hwrites.tidy (hmade.tidy htidy)
  have hsame (root : Path) (hroot : root ∈ roots) :=
    SourceFilesLemmas.filesOfRoot_of_rootFiles (hreads.steady root hroot)
  have heq := Session.tried_eq hworks.operates htidy hwalked
    (fun root hroot => (hsame root hroot).1) (hmade.tidy htidy) (.inl hroots) (hmade.grows htidy.root)
    (.refl _)
  have hran := (Session.retraces plan roots s).same
  rw [hroots, heq] at hran
  refine ⟨heq, hran.symm, hmade.tidy htidy, hclosed, horderly, hremembers, hmade.grows htidy.root,
    hreads.sources, fun m hm => (hmade.trans hwrites).spares htidy.root hreads.sources hm, ?_⟩
  intro path hpath
  obtain ⟨root, hroot, hmem⟩ := List.mem_flatMap.1 hpath
  exact (hsame root hroot).2 path hmem

end LaggingRunsLemmas

/-! ## 4. Whole walks -/

open LaggingRunsLemmas in
/-- If the session in front reads what the other one could read at the start and has taken up all
roots, the other one can do so too. Both tell their targets about the same files, and have loaded,
handled and counted the same in the end. -/
theorem Session.walks_behind {plan : Plan σ}
    {units : Output → Graph → SchemaFile → List GeneratedFile}
    (hgenerates : plan.target.Generates units) (hworks : plan.target.Works)
    (hcarries : ∀ g f e, CarriesOver Workspace.Lags (plan.target.handle g f e))
    {roots : List Path} {s s' : Session σ} (hlags : s.Lags s') (htidy : s.workspace.files.IsTidy)
    (hclosed : s.workspace.output.current = none)
    (horderly : s.catalog.IsOrderly) (hremembers : s.catalog.Remembers)
    {made : List GeneratedFile} (hmade : s.workspace.Writes made s'.workspace)
    (hroots : (roots.forM (Run.root plan)).run s' = (.ok (), s'.walked plan roots))
    (hreads : s'.ReadsLike plan s.workspace.files roots) :
    (roots.forM (Run.root plan)).run s = (.ok (), s.walked plan roots) ∧
      (s.walked plan roots).Lags (s'.walked plan roots) ∧
      s.emitted plan roots = s'.emitted plan roots := by
  rw [hlags.catalog] at horderly hremembers
  obtain ⟨htried', hrereads⟩ :=
    rereads_tried hgenerates hworks htidy hmade (hlags.workspace.current ▸ hclosed) horderly
      hremembers hroots hreads
  obtain ⟨after, hafter, hlags', hvisits⟩ :=
    rootFiles_follow hgenerates hcarries htidy hlags (.refl _) hrereads
  obtain ⟨hgrows, htidyAfter, -⟩ := SourceFilesLemmas.rootFiles_grow hgenerates htidy hclosed
    hafter
  obtain ⟨hgrows', htidyAfter', -⟩ :=
    SourceFilesLemmas.rootFiles_grow hgenerates hrereads.tidy hrereads.closed hrereads.ran
  have htried : s.tried plan roots = roots.flatMap (plan.filesOfRoot s.workspace.files) := by
    refine Session.tried_eq hworks.operates htidy htidyAfter (fun root hroot => ?_) htidy
      (.inr hafter) (.refl _) (.refl _)
    exact filesOfRoot_behind htidy htidyAfter htidyAfter' hgrows (hrereads.grows.trans hgrows')
      hlags'.workspace.files
      (SourceFilesLemmas.filesOfRoot_of_rootFiles (hreads.steady root hroot)).1
  have hrun := (Session.retraces plan roots s).same
  rw [htried, hafter] at hrun
  have hwalked := Session.walked_eq hrun
  refine ⟨hwalked ▸ hrun, hwalked ▸ hlags', ?_⟩
  rw [Session.emitted, Session.emitted, Session.visited, Session.visited, Run.seen_eq_along,
    Run.seen_eq_along, htried, htried', hlags.handled]
  exact congrArg (fun visits : List Visit => EventOrderLemmas.todo _ _ (visits.flatMap _)) hvisits

end SchemaGen
