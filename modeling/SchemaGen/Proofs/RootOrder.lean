import SchemaGen.Proofs.ModuleTree
import SchemaGen.Proofs.LaterRuns
import SchemaGen.Proofs.OutputViews
import SchemaGen.Proofs.SourceFiles

/-!
# The order of roots

Two runs over the same roots in different orders load their files in different orders, and give them
different numbers. Still they load the same files: those that the roots stand for, and what these
import. The files look alike in both graphs, so the same is generated for them, and where no two
outputs lie at one place it makes no difference which of them is written first.

Results:
1. `Session.Gathers.locations_iff`: both runs load the same files.
2. `Session.Gathers.stats_eq`: both runs count the same.
3. `Workspace.Writes.sameOutput`: the same files written in different orders.
4. `outputs_of_permuted_roots`: both runs have the same outputs. None of its conditions can be left
   out: `skipped_of_permuted_roots`, `contents_of_permuted_roots`, `stats_of_permuted_roots`.
-/

namespace SchemaGen

open Relation

variable {σ : Type}

/-! ## Definitions -/

/-- The two paths lead to the same place. -/
def FileSystem.SameFile (fs : FileSystem) (p q : Path) : Prop :=
  ∃ l, fs.Reaches .reach p p.steps l ∧ fs.Reaches .reach q q.steps l

/-- No two files that a run writes for schema files lie at the same place. -/
def Session.KeepsApart (plan : Plan σ) (roots : List Path) (s : Session σ) : Prop :=
  (s.walked plan roots).workspace.output.written.Pairwise fun p q =>
    ¬ (s.walked plan roots).workspace.files.SameFile p q

/-- A run succeeds, leaves what it reads as it is, and keeps what it writes apart. -/
structure Session.RunsCleanly (plan : Plan σ) (roots : List Path) (s : Session σ) (stats : Stats) :
    Prop where
  ok : (Session.run plan roots s).1 = .ok stats
  undisturbed : s.Undisturbed plan roots
  apart : s.KeepsApart plan roots

/-- The same files have been written, and all files hold the same. -/
structure Workspace.SameOutput (w w' : Workspace σ) : Prop where
  written : ∀ p, p ∈ w.output.written ↔ p ∈ w'.output.written
  contents : ∀ l, w.files.contents? l = w'.files.contents? l

/-! ## 1. Files of both runs -/

variable {fs : FileSystem} {plan : Plan σ} {roots : List Path} {s : Session σ}

/-- The imports of a loaded file lead to loaded files. -/
theorem Built.imported {root : Path} {g : Graph} (h : Built fs root g) {m : Location}
    (hm : m ∈ g.locations) {d : Document} (hd : Holds fs m d) {imported : String}
    (himported : imported ∈ d.imports) :
    ∃ l, fs.canonicalize (root / imported) = .ok l ∧ l ∈ g.locations := by
  obtain ⟨i, hi⟩ := List.getElem?_of_mem hm
  obtain ⟨f, hf, rfl⟩ := Graph.exists_file_of_location? hi
  obtain ⟨d', hd', -, himports⟩ := h.holds_of_file? hf
  obtain rfl := hd.unique hd'
  obtain ⟨l, hl⟩ := himports imported himported
  have hstep : ReflTransGen (Imports fs root) f.location l :=
    .single ⟨d, hd, imported, himported, hl⟩
  obtain ⟨j, f', hf', rfl⟩ := h.loaded_of_reaches hf hstep
  exact ⟨f'.location, hl, List.mem_of_getElem? (Graph.location?_of_file? hf')⟩

namespace Session.Gathers

variable {plan : Plan σ} {roots roots' : List Path} {s : Session σ}
  (h : s.Gathers plan roots) (h' : s.Gathers plan roots')

include h h'

theorem sameLinks :
    (s.walked plan roots).workspace.files.SameLinks (s.walked plan roots').workspace.files :=
  h.grows.sameLinks.symm.trans h'.grows.sameLinks

/-- A file of both graphs holds the same in both runs. -/
theorem holds {m : Location} (hm : m ∈ (s.walked plan roots).catalog.graph.locations)
    (hm' : m ∈ (s.walked plan roots').catalog.graph.locations) {d : Document}
    (hd : Holds (s.walked plan roots).workspace.files m d) :
    Holds (s.walked plan roots').workspace.files m d :=
  hd.of_contents ((h'.kept m hm').trans (h.kept m hm).symm)

/-- An import of a file of both graphs leads to the same place in both runs. -/
theorem imported {m : Location} (hm : m ∈ (s.walked plan roots).catalog.graph.locations)
    (hm' : m ∈ (s.walked plan roots').catalog.graph.locations) {d : Document}
    (hd : Holds (s.walked plan roots).workspace.files m d) {imported : String}
    (himported : imported ∈ d.imports) {l : Location}
    (hl : (s.walked plan roots).workspace.files.canonicalize (s.catalog.root / imported) = .ok l) :
    (s.walked plan roots').workspace.files.canonicalize (s.catalog.root / imported) = .ok l ∧
      l ∈ (s.walked plan roots').catalog.graph.locations := by
  obtain ⟨l', hl', hmem⟩ := h'.built.imported hm' (h.holds h' hm hm' hd) himported
  obtain ⟨hreaches, -⟩ := FileSystem.canonicalize_eq_ok_iff.1 hl
  obtain ⟨hreaches', -⟩ := FileSystem.canonicalize_eq_ok_iff.1 hl'
  obtain rfl := hreaches.unique (h.sameLinks h') (by simp) (by simp) hreaches'
  exact ⟨hl', hmem⟩

section Permuted

variable (hperm : roots.Perm roots')

include hperm

/-- The way from a root file to a file of one graph can be gone in the other one, import by
import. -/
theorem locations_subset {m : Location}
    (hm : m ∈ (s.walked plan roots).catalog.graph.locations) :
    m ∈ (s.walked plan roots').catalog.graph.locations := by
  obtain ⟨path, hpath, l, hl, hsteps⟩ := (h.locations m).1 hm
  have hpath' : path ∈ roots'.flatMap (plan.filesOfRoot s.workspace.files) :=
    (hperm.flatMap_right _).mem_iff.1 hpath
  clear hm
  induction hsteps with
  | refl => exact (h'.locations l).2 ⟨path, hpath', l, hl, .refl⟩
  | @tail m m' hsteps hstep ih =>
    obtain ⟨d, hd, imported, himported, hcanonical⟩ := hstep
    have hm := (h.locations m).2 ⟨path, hpath, l, hl, hsteps⟩
    exact (h.imported h' hm ih hd himported hcanonical).2

/-- Both runs load the same files. -/
theorem locations_iff (m : Location) :
    m ∈ (s.walked plan roots).catalog.graph.locations ↔
      m ∈ (s.walked plan roots').catalog.graph.locations :=
  ⟨fun hm => h.locations_subset h' hperm hm, fun hm => h'.locations_subset h hperm.symm hm⟩

/-- The graph of one run could have been loaded where the other one has got to. -/
theorem built_beside :
    Built (s.walked plan roots).workspace.files s.catalog.root
      (s.walked plan roots').catalog.graph := by
  have hmem (m : Location) := (h.locations_iff h' hperm m).2
  refine h'.built.transfer (fun m hm => ?_) fun m hm d hd imported himported l hl => ?_
  · rw [h.kept m (hmem m hm), h'.kept m hm]
  · exact (h'.imported h hm (hmem m hm) hd himported hl).1

/-- The graphs of both runs look alike. -/
theorem alike :
    (s.walked plan roots).catalog.graph.Alike
      ((s.walked plan roots).catalog.graph.pathOf ⟨""⟩)
      ((s.walked plan roots').catalog.graph.pathOf ⟨""⟩) (s.walked plan roots').catalog.graph :=
  h.built.alike (h.built_beside h' hperm)

/-- For each file that one run tells its target about, the other one tells about a file that looks
alike. -/
theorem exists_told {f : SchemaFile} (hf : f ∈ s.told plan roots) :
    ∃ f' ∈ s.told plan roots', f.view ((s.walked plan roots).catalog.graph.pathOf ⟨""⟩) =
      f'.view ((s.walked plan roots').catalog.graph.pathOf ⟨""⟩) := by
  obtain ⟨i, hi⟩ := (h.told f).1 hf
  have hm := List.mem_of_getElem? (Graph.location?_of_file? hi)
  obtain ⟨j, hj⟩ := List.getElem?_of_mem ((h.locations_iff h' hperm _).1 hm)
  obtain ⟨f', hf', hlocation⟩ := Graph.exists_file_of_location? hj
  exact ⟨f', (h'.told f').2 ⟨j, hf'⟩, h.built.view_eq (h.built_beside h' hperm)
    (Graph.named_pathOf _ _) (Graph.named_pathOf _ _) hi hf' hlocation.symm⟩

/-- Whatever is generated for files without a look at numbers is generated in both runs. -/
theorem mem_units {β : Type} (units : Graph → SchemaFile → List β)
    (hblind : ∀ {ν ν' g g' f f'}, Graph.Alike ν ν' g g' → SchemaFile.view ν f = f'.view ν' →
      units g f = units g' f') (x : β) :
    x ∈ (s.told plan roots).flatMap (units (s.walked plan roots).catalog.graph) ↔
      x ∈ (s.told plan roots').flatMap (units (s.walked plan roots').catalog.graph) := by
  constructor
  · intro hx
    obtain ⟨f, hf, hmem⟩ := List.mem_flatMap.1 hx
    obtain ⟨f', hf', hview⟩ := h.exists_told h' hperm hf
    exact List.mem_flatMap.2 ⟨f', hf', hblind (h.alike h' hperm) hview ▸ hmem⟩
  · intro hx
    obtain ⟨f', hf', hmem⟩ := List.mem_flatMap.1 hx
    obtain ⟨f, hf, hview⟩ := h'.exists_told h hperm.symm hf'
    exact List.mem_flatMap.2 ⟨f, hf, hblind (h'.alike h hperm.symm) hview ▸ hmem⟩

end Permuted

end Session.Gathers

/-! ## 2. Statistics -/

namespace RootOrderLemmas

open EventOrderLemmas

/-- No file is told twice, also not one that looks like another. -/
theorem nodup_views (plan : Plan σ) (roots : List Path) (s : Session σ) (ν : FileId → Path) :
    ((s.told plan roots).map (·.view ν)).Nodup := by
  have hpaths : ((s.told plan roots).map (·.path)).Nodup := by
    rw [Session.told, ← todo_nil]
    exact (nodup_todo _ _ _).1
  refine List.Nodup.of_map FileView.path ?_
  rw [List.map_map]
  exact hpaths

/-- What is counted can be told from views. -/
theorem counting_of_views {s : Stats} {ν ν' : FileId → Path} {files files' : List SchemaFile}
    (h : (files.map (·.view ν)).Perm (files'.map (·.view ν'))) (left : Nat) :
    s.counting files left = s.counting files' left := by
  have hlength := h.length_eq
  have hmessages := (h.map fun v => v.messages.countP (!·.isSkipped)).sum_nat
  have henums := (h.map fun v => v.enums.countP (!·.isSkipped)).sum_nat
  simp only [List.length_map, List.map_map, Function.comp_def, SchemaFile.view,
    List.countP_map] at hlength hmessages henums
  unfold Stats.counting
  rw [hlength]
  exact congrArg₂ (fun messages enums => (⟨_, s.messages + messages, s.enums + enums, _⟩ : Stats))
    hmessages henums

end RootOrderLemmas

open RootOrderLemmas

variable {roots' : List Path} {w now now' : Workspace σ} {settings : Settings} {dir : Path}
  {target : Target σ} {extension : String} {fs' : FileSystem}
  {units : Output → Graph → SchemaFile → List GeneratedFile}

/-- Both runs count the same. -/
theorem Session.Gathers.stats_eq (h : s.Gathers plan roots) (h' : s.Gathers plan roots')
    (hperm : roots.Perm roots') : (s.walked plan roots).stats = (s.walked plan roots').stats := by
  have hviews := (List.perm_ext_iff_of_nodup
    (nodup_views plan roots s ((s.walked plan roots).catalog.graph.pathOf ⟨""⟩))
    (nodup_views plan roots' s ((s.walked plan roots').catalog.graph.pathOf ⟨""⟩))).2 fun v => by
      constructor
      · intro hv
        obtain ⟨f, hf, rfl⟩ := List.mem_map.1 hv
        obtain ⟨f', hf', hview⟩ := h.exists_told h' hperm hf
        exact List.mem_map.2 ⟨f', hf', hview.symm⟩
      · intro hv
        obtain ⟨f', hf', rfl⟩ := List.mem_map.1 hv
        obtain ⟨f, hf, hview⟩ := h'.exists_told h hperm.symm hf'
        exact List.mem_map.2 ⟨f, hf, hview.symm⟩
  rw [h.counted, h'.counted, counting_of_views hviews,
    (hperm.flatMap_right (plan.filesOfRoot s.workspace.files)).countP_eq]

/-! ## 3. The same files in different orders -/

namespace RootOrderLemmas

variable {w now now' : Workspace σ} {placed placed' : List (GeneratedFile × Location)}

theorem nodup_places (h : w.Wrote now placed) (hroot : w.files.HasDirectory [])
    (hapart : now.output.written.Pairwise fun p q => ¬ now.files.SameFile p q) :
    (placed.map (·.2)).Nodup := by
  rw [h.written, List.pairwise_append] at hapart
  have hpaths := List.pairwise_map.1 hapart.2.1
  refine List.pairwise_map.2 (hpaths.imp_of_mem fun {p q} hp hq hne heq => hne ⟨p.2, ?_, ?_⟩)
  · exact h.reaches hroot p hp
  · rw [heq]
    exact h.reaches hroot q hq

/-- A file that both have written lies at the same place. -/
theorem mem_placed (h : w.Wrote now placed) (h' : w.Wrote now' placed')
    (hroot : w.files.HasDirectory [])
    (hfiles : ∀ file, file ∈ placed.map (·.1) → file ∈ placed'.map (·.1))
    {file : GeneratedFile} {l : Location} (hmem : (file, l) ∈ placed) : (file, l) ∈ placed' := by
  obtain ⟨⟨file', l'⟩, hmem', rfl⟩ :=
    List.mem_map.1 (hfiles file (List.mem_map.2 ⟨(file, l), hmem, rfl⟩))
  have hlinks := (h.changes.grows hroot).sameLinks.symm.trans (h'.changes.grows hroot).sameLinks
  have heq : l = l' :=
    (h.reaches hroot _ hmem).unique hlinks (by simp) (by simp) (h'.reaches hroot _ hmem')
  rw [heq]
  exact hmem'

theorem lastAt_eq (hnodup : (placed.map (·.2)).Nodup) (hnodup' : (placed'.map (·.2)).Nodup)
    (hmem : ∀ file l, (file, l) ∈ placed ↔ (file, l) ∈ placed') (l : Location) :
    GeneratedFile.lastAt l placed = GeneratedFile.lastAt l placed' := by
  by_cases hl : l ∈ placed.map (·.2)
  · obtain ⟨⟨file, l⟩, hfile, rfl⟩ := List.mem_map.1 hl
    rw [GeneratedFile.lastAt_of_mem hnodup hfile,
      GeneratedFile.lastAt_of_mem hnodup' ((hmem file l).1 hfile)]
  · have hl' : l ∉ placed'.map (·.2) := by
      intro hl'
      obtain ⟨⟨file, l⟩, hfile, rfl⟩ := List.mem_map.1 hl'
      exact hl (List.mem_map.2 ⟨_, (hmem file l).2 hfile, rfl⟩)
    rw [GeneratedFile.lastAt_eq_none_iff.2 hl, GeneratedFile.lastAt_eq_none_iff.2 hl']

/-- The same files are written to the same places. -/
theorem placed_eq {w' : Workspace σ} (h : w.Wrote now placed) (h' : w'.Wrote now' placed')
    (hroot : w.files.HasDirectory []) (hroot' : w'.files.HasDirectory [])
    (hlinks : now.files.SameLinks now'.files) (hfiles : placed.map (·.1) = placed'.map (·.1)) :
    placed = placed' := by
  have hlength : placed.length = placed'.length := by
    simpa only [List.length_map] using congrArg List.length hfiles
  refine List.ext_getElem hlength fun i hi hi' => ?_
  have hfile : placed[i].1 = placed'[i].1 := by
    have hat := congrArg (·[i]?) hfiles
    simpa only [List.getElem?_map, List.getElem?_eq_getElem hi, List.getElem?_eq_getElem hi',
      Option.map_some, Option.some.injEq] using hat
  have hreaches := h.reaches hroot _ (List.getElem_mem hi)
  rw [hfile] at hreaches
  exact Prod.ext hfile (hreaches.unique hlinks (by simp) (by simp)
    (h'.reaches hroot' _ (List.getElem_mem hi')))

end RootOrderLemmas

/-- Where no two files lie at the same place, it makes no difference in which order they are
written. -/
theorem Workspace.Writes.sameOutput {files files' : List GeneratedFile} (h : w.Writes files now)
    (h' : w.Writes files' now') (hroot : w.files.HasDirectory [])
    (hfiles : ∀ file, file ∈ files ↔ file ∈ files')
    (hapart : now.output.written.Pairwise fun p q => ¬ now.files.SameFile p q)
    (hapart' : now'.output.written.Pairwise fun p q => ¬ now'.files.SameFile p q) :
    now.SameOutput now' := by
  obtain ⟨placed, rfl, hwrote⟩ := h
  obtain ⟨placed', rfl, hwrote'⟩ := h'
  have hplaced (file : GeneratedFile) (l : Location) :
      (file, l) ∈ placed ↔ (file, l) ∈ placed' :=
    ⟨mem_placed hwrote hwrote' hroot fun file => (hfiles file).1,
      mem_placed hwrote' hwrote hroot fun file => (hfiles file).2⟩
  constructor
  · intro p
    rw [hwrote.written, hwrote'.written, List.mem_append, List.mem_append]
    refine or_congr_right ?_
    have hpaths (placed : List (GeneratedFile × Location)) :
        p ∈ placed.map (·.1.path) ↔ ∃ file ∈ placed.map (·.1), file.path = p := by
      simp [List.mem_map]
    rw [hpaths, hpaths]
    exact exists_congr fun file => and_congr_left fun _ => hfiles file
  · intro l
    rw [hwrote.contents?_eq, hwrote'.contents?_eq,
      lastAt_eq (nodup_places hwrote hroot hapart) (nodup_places hwrote' hroot hapart') hplaced]

/-- Outputs stay the same when the same files are written afterwards, in the same order. -/
theorem Workspace.SameOutput.writes {w' : Workspace σ} (h : w.SameOutput w')
    {files : List GeneratedFile} (hwrites : w.Writes files now) (hwrites' : w'.Writes files now')
    (hroot : w.files.HasDirectory []) (hroot' : w'.files.HasDirectory [])
    (hlinks : w.files.SameLinks w'.files) : now.SameOutput now' := by
  obtain ⟨placed, rfl, hwrote⟩ := hwrites
  obtain ⟨placed', hfiles, hwrote'⟩ := hwrites'
  have hlinks' : now.files.SameLinks now'.files :=
    (hwrote.changes.grows hroot).sameLinks.symm.trans
      (hlinks.trans (hwrote'.changes.grows hroot').sameLinks)
  obtain rfl := placed_eq hwrote' hwrote hroot' hroot hlinks'.symm hfiles
  constructor
  · intro p
    rw [hwrote.written, hwrote'.written, List.mem_append, List.mem_append, h.written]
  · intro l
    rw [hwrote.contents?_eq, hwrote'.contents?_eq, h.contents]

/-! ## 4. Permuted roots -/

theorem Session.walked_of_run {stats : Stats} (h : (Session.run plan roots s).1 = .ok stats) :
    (roots.forM (Run.root plan)).run s = (.ok (), s.walked plan roots) ∧
      plan.target.finish.run (s.walked plan roots).workspace =
        (.ok (), (Session.run plan roots s).2.workspace) ∧
      stats = (s.walked plan roots).stats := by
  obtain ⟨after, hroots, hfinish, -, hstats⟩ := Session.run_ok h
  have hwalked := Session.walked_eq hroots
  rw [hwalked]
  exact ⟨hroots, hfinish, hstats⟩

/-- A session starts with nothing loaded, told or written. -/
theorem Session.gathers_of_start {notes : σ} (hworks : target.Works)
    (hgenerates : target.Generates units) (tidy : fs.IsTidy)
    (hstart : (Session.start settings dir target extension notes).run fs = (.ok (plan, s), fs'))
    {stats : Stats} (h : s.RunsCleanly plan roots stats) : s.Gathers plan roots := by
  obtain ⟨rfl, hfresh, -, -, -⟩ := Session.of_start hstart
  obtain ⟨rfl, hchanges, -⟩ := Session.files_of_start hstart
  have hcatalog := Session.catalog_of_start hstart
  have hempty := LoadExactLemmas.graph_of_ofRoot hcatalog
  have hsettled : Settled s.workspace.files s.catalog := by
    refine (Settled.of_ofRoot hcatalog).grows (hchanges.grows tidy.root) fun m hm => ?_
    rw [hempty] at hm
    cases hm
  exact Session.gathers hworks hgenerates (hchanges.tidy tidy) (Session.closed_of_start hstart)
    hsettled (Catalog.isOrderly_of_ofRoot hcatalog) hempty hfresh (Session.walked_of_run h.ok).1
    h.undisturbed

/-- Two runs over the same roots have written the same when all roots have been taken up, and write
the same if their targets then do so. -/
theorem Session.sameOutput_of_start {notes : σ} (hworks : target.Works)
    (hgenerates : target.Generates units)
    (hblind : ∀ {o ν ν' g g' f f'}, Graph.Alike ν ν' g g' → SchemaFile.view ν f = f'.view ν' →
      units o g f = units o g' f') (tidy : fs.IsTidy)
    (hstart : (Session.start settings dir target extension notes).run fs = (.ok (plan, s), fs'))
    (hperm : roots.Perm roots') {stats stats' : Stats} (h : s.RunsCleanly plan roots stats)
    (h' : s.RunsCleanly plan roots' stats') {files : List GeneratedFile}
    (hfinish : (s.walked plan roots).workspace.Writes files (Session.run plan roots s).2.workspace)
    (hfinish' : (s.walked plan roots').workspace.Writes files
      (Session.run plan roots' s).2.workspace) :
    stats = stats' ∧
      (Session.run plan roots s).2.workspace.SameOutput
        (Session.run plan roots' s).2.workspace := by
  have hgathers := Session.gathers_of_start hworks hgenerates tidy hstart h
  have hgathers' := Session.gathers_of_start hworks hgenerates tidy hstart h'
  obtain ⟨rfl, hfresh, -, -, -⟩ := Session.of_start hstart
  obtain ⟨rfl, hchanges, -⟩ := Session.files_of_start hstart
  have htidy := hchanges.tidy tidy
  obtain ⟨hroots, -, rfl⟩ := Session.walked_of_run h.ok
  obtain ⟨hroots', -, rfl⟩ := Session.walked_of_run h'.ok
  have hclosed := Session.closed_of_start hstart
  have hwrites := Session.writes_told hgenerates hfresh hclosed hroots
  have hwrites' := Session.writes_told hgenerates hfresh hclosed hroots'
  have hsame := hwrites.sameOutput hwrites' htidy.root
    (hgathers.mem_units hgathers' hperm (units s.workspace.output.blank) hblind) h.apart h'.apart
  exact ⟨hgathers.stats_eq hgathers' hperm, hsame.writes hfinish hfinish'
    (hwrites.tidy htidy).root (hwrites'.tidy htidy).root (hgathers.sameLinks hgathers')⟩

namespace Rust

theorem eq_of_ordered {α : Type} {r : α → α → Prop} (hne : ∀ a b, r a b → a ≠ b)
    (hasymm : ∀ a b, r a b → r b a → a = b) {xs ys : List α} (hxs : xs.Pairwise r)
    (hys : ys.Pairwise r) (h : ∀ x, x ∈ xs ↔ x ∈ ys) : xs = ys := by
  have hperm := (List.perm_ext_iff_of_nodup (hxs.imp fun {a b} => hne a b)
    (hys.imp fun {a b} => hne a b)).2 h
  exact hperm.eq_of_pairwise (fun a b _ _ => hasymm a b) hxs hys

/-- Indexes do not show the order in which modules were noted down. -/
theorem indexes_congr {cs cs' : List Child} (h : ∀ c, c ∈ cs ↔ c ∈ cs') :
    indexes cs = indexes cs' := by
  have hdirectories : ordered notBehind (cs.map (·.directory)) =
      ordered notBehind (cs'.map (·.directory)) := by
    have hspec (cs : List Child) := ModuleFilesLemmas.ordered_spec
      ModuleFilesLemmas.notBehind_antisymm ModuleFilesLemmas.notBehind_trans
      ModuleFilesLemmas.notBehind_total (cs.map (·.directory))
    refine eq_of_ordered (fun a b hab => hab.2)
      (fun a b hab hba => ModuleFilesLemmas.notBehind_antisymm hab.1 hba.1) (hspec cs).1
      (hspec cs').1 fun directory => ?_
    rw [(hspec cs).2, (hspec cs').2]
    simp only [List.mem_map, h]
  have hnames (directory : List String) :
      ordered (fun a b => decide (a ≤ b)) ((cs.filter (·.directory = directory)).map (·.name)) =
        ordered (fun a b => decide (a ≤ b))
          ((cs'.filter (·.directory = directory)).map (·.name)) := by
    refine eq_of_ordered (fun a b hab => String.ne_of_lt hab)
      (fun a b hab hba => absurd hba (String.lt_asymm hab)) (ordered_names _).1
      (ordered_names _).1 fun name => ?_
    rw [(ordered_names _).2, (ordered_names _).2]
    simp only [List.mem_map, List.mem_filter, h]
  unfold indexes
  rw [hdirectories]
  simp only [hnames]

end Rust

/-- Runs over the same roots in different orders count the same and write the same files. -/
theorem outputs_of_permuted_roots {settings : Settings} {dir : Path} {fs fs' : FileSystem}
    (tidy : fs.IsTidy) {roots roots' : List Path} (hperm : roots.Perm roots') :
    (∀ plan s stats stats',
      (Session.start settings dir Java.target Java.extension ()).run fs = (.ok (plan, s), fs') →
      s.RunsCleanly plan roots stats → s.RunsCleanly plan roots' stats' →
        stats = stats' ∧
          (Session.run plan roots s).2.workspace.SameOutput
            (Session.run plan roots' s).2.workspace) ∧
    ∀ plan s stats stats',
      (Session.start settings dir Rust.target Rust.extension []).run fs = (.ok (plan, s), fs') →
      s.RunsCleanly plan roots stats → s.RunsCleanly plan roots' stats' →
        stats = stats' ∧
          (Session.run plan roots s).2.workspace.SameOutput
            (Session.run plan roots' s).2.workspace := by
  constructor
  · intro plan s stats stats' hstart hrun hrun'
    obtain ⟨hplan, -⟩ := Session.of_start hstart
    have hfinish {roots : List Path} {stats : Stats} (h : s.RunsCleanly plan roots stats) :
        (s.walked plan roots).workspace.Writes [] (Session.run plan roots s).2.workspace := by
      obtain ⟨hroots, hfinish, -⟩ := Session.walked_of_run h.ok
      have hgenerates : plan.target.Generates Java.filesFor := hplan ▸ Java.generates
      exact Java.writes_finish ((Session.advances hgenerates hroots).1.closes
        (Session.closed_of_start hstart)) (hplan ▸ hfinish)
    exact Session.sameOutput_of_start Java.works Java.generates
      (fun hg hview => Java.filesFor_view hg hview _) tidy hstart hperm hrun hrun' (hfinish hrun)
      (hfinish hrun')
  · intro plan s stats stats' hstart hrun hrun'
    obtain ⟨hplan, hfresh, hnotes, -, -⟩ := Session.of_start hstart
    have hfinish {roots : List Path} {stats : Stats} (h : s.RunsCleanly plan roots stats) :
        (s.walked plan roots).workspace.Writes
          ((Rust.indexes (Rust.neededBy (s.told plan roots))).map
            (Rust.indexOf s.workspace.output.blank)) (Session.run plan roots s).2.workspace := by
      obtain ⟨hroots, hfinish, -⟩ := Session.walked_of_run h.ok
      rw [hplan] at hfinish
      have hclosed := Session.closed_of_start hstart
      have hgenerates : plan.target.Generates fun o g f => [Rust.sourceOf o g f] :=
        hplan ▸ Rust.generates
      have hwrites := Rust.writes_finish
        ((Session.advances hgenerates hroots).1.closes hclosed) hfinish
      rw [Rust.notes_of_run hplan hfresh hnotes hroots,
        (Session.writes_told hgenerates hfresh hclosed hroots).blank] at hwrites
      exact hwrites
    -- The order of the files told does not show in the indexes.
    have hindexes : Rust.indexes (Rust.neededBy (s.told plan roots)) =
        Rust.indexes (Rust.neededBy (s.told plan roots')) :=
      Rust.indexes_congr ((Session.gathers_of_start Rust.works Rust.generates tidy hstart
        hrun).mem_units (Session.gathers_of_start Rust.works Rust.generates tidy hstart hrun') hperm
          (fun _ => Rust.childrenOf) fun _ hview => Rust.childrenOf_view hview)
    refine Session.sameOutput_of_start Rust.works Rust.generates
      (fun hg hview => congrArg ([·]) (Rust.sourceOf_view hg hview _)) tidy hstart hperm hrun hrun'
      (hfinish hrun) ?_
    rw [hindexes]
    exact hfinish hrun'

/-! ### Two files that have nothing to do with each other -/

namespace FileSystem

/-- The places that paths lead to, as far as they can be followed. -/
def placesOf (fs : FileSystem) (paths : List Path) : List (Option Location) :=
  paths.map fun p => (fs.canonicalize p).toOption

/-- Whether the paths are seen to lead to different places. -/
def looksApart (fs : FileSystem) (paths : List Path) : Bool :=
  (fs.placesOf paths).all Option.isSome && decide (fs.placesOf paths).Nodup

section Looks

variable {fs : FileSystem} {paths : List Path}

theorem place_of_reaches {p : Path} (hp : p ∈ paths)
    (hplaces : ∀ place ∈ fs.placesOf paths, place.isSome) {l : Location}
    (hl : fs.Reaches .reach p p.steps l) : (fs.canonicalize p).toOption = some l := by
  have hsome := hplaces _ (List.mem_map_of_mem hp)
  rcases hcanonical : fs.canonicalize p with e | m
  · rw [hcanonical] at hsome
    cases hsome
  · obtain ⟨hreaches, -⟩ := canonicalize_eq_ok_iff.1 hcanonical
    obtain rfl := hreaches.unique (Grows.refl _).sameLinks (by simp) (by simp) hl
    rfl

theorem apart_of_looks (h : fs.looksApart paths = true) :
    paths.Pairwise fun p q => ¬ fs.SameFile p q := by
  obtain ⟨hplaces, hnodup⟩ := Bool.and_eq_true_iff.1 h
  have hplaces := List.all_eq_true.1 hplaces
  refine (List.pairwise_map.1 (of_decide_eq_true hnodup)).imp_of_mem fun {p q} hp hq hne => ?_
  rintro ⟨l, hl, hl'⟩
  exact hne ((place_of_reaches hp hplaces hl).trans (place_of_reaches hq hplaces hl').symm)

end Looks

end FileSystem

namespace Session

/-- Whether the roots of a run that has got to `after` are seen to stand for the same root files as
in `fs`. -/
def looksSteady (plan : Plan σ) (fs : FileSystem) (roots : List Path) (s after : Session σ) :
    Bool :=
  roots.all fun root => plan.rootFiles after.workspace.files s.catalog.root root =
    plan.rootFiles fs s.catalog.root root

/-- Whether nothing is seen to be written to the places of schema files. -/
def looksSpared (after : Session σ) : Bool :=
  (after.workspace.files.placesOf after.workspace.output.written).all
    (·.any (!after.catalog.graph.locations.contains ·))

/-- Whether the files written are seen to lie at different places. -/
def looksApart (after : Session σ) : Bool :=
  after.workspace.files.looksApart after.workspace.output.written

section Looks

variable {fs : FileSystem} {after : Session σ}
  (hroots : (roots.forM (Run.root plan)).run s = (.ok (), after))
include hroots

theorem steady_of_looks (h : s.looksSteady plan fs roots after = true) : ∀ root ∈ roots,
    plan.rootFiles (s.walked plan roots).workspace.files s.catalog.root root =
      plan.rootFiles fs s.catalog.root root := by
  rw [walked_eq hroots]
  simpa [looksSteady] using h

theorem sources_of_looks (h : after.looksSpared = true) :
    (s.walked plan roots).workspace.files.Spares (s.walked plan roots).workspace.output.written
      (s.walked plan roots).catalog.graph := by
  rw [walked_eq hroots]
  intro p hp f hf hreaches
  have hspared := List.all_eq_true.1 h
  have hplaces (place : Option Location)
      (hmem : place ∈ after.workspace.files.placesOf after.workspace.output.written) :
      place.isSome := by
    have hany := hspared place hmem
    cases place with
    | none => cases hany
    | some l => rfl
  have hany := hspared _ (List.mem_map_of_mem hp)
  rw [FileSystem.place_of_reaches hp hplaces hreaches] at hany
  have hnot : f.location ∉ after.catalog.graph.locations := by simpa using hany
  exact hnot (List.mem_map_of_mem hf)

theorem keepsApart_of_looks (h : after.looksApart = true) : s.KeepsApart plan roots := by
  unfold KeepsApart
  rw [walked_eq hroots]
  exact FileSystem.apart_of_looks h

end Looks

end Session

namespace Strangers

/-- Two files with a message each. -/
def entries : List (String × Node) :=
  [("a", .text "package p; message M \x7b \x7d"),
    ("b", .text "package p; message N \x7b \x7d")]

/-- The two files before a session. -/
def system : FileSystem := schemaSystem entries

theorem isTidy_system : system.IsTidy :=
  FileSystem.isTidy_of_places ⟨.full, _, rfl⟩ (by decide)

section Runs

variable (target : Target σ) (extension : String) (notes : σ)

/-- The session at its start. -/
def session : Session σ := schemaSession extension notes entries

theorem start_strangers :
    (Session.start twinSettings ⟨"/s"⟩ target extension notes).run system =
      (.ok (twinPlan target, session extension notes), schemaSystemWithOutput entries) :=
  start_schemas target extension notes entries

variable {target} {extension} {notes}

/-- The two files are told and counted, and this is seen to be clean. -/
theorem runsCleanly {given : σ} {finish : Emit σ Unit} {roots : List Path}
    (hfinish : ∀ w : Workspace σ, w.notes = given → target.finish.run w = finish.run w)
    (h : ∃ r ∈ (session extension notes).rootsWithin (twinPlan target) 1 roots,
      r.2.1 = .ok () ∧ r.2.2.workspace.notes = given ∧
        (finish.run r.2.2.workspace).1 = .ok () ∧ r.2.2.stats = ⟨2, 2, 0, 0⟩ ∧
        (session extension notes).looksSteady (twinPlan target) (schemaSystemWithOutput entries) roots
          r.2.2 = true ∧ r.2.2.looksSpared = true ∧ r.2.2.looksApart = true) :
    (session extension notes).RunsCleanly (twinPlan target) roots ⟨2, 2, 0, 0⟩ := by
  obtain ⟨⟨_, _, after⟩, hwithin, rfl, hnotes, hended, hstats, hsteady, hspared, hapart⟩ := h
  have hroots := (BoundedRunsLemmas.roots_of_within hwithin).1
  refine ⟨?_, ⟨Session.steady_of_looks hroots hsteady, Session.sources_of_looks hroots hspared⟩,
    Session.keepsApart_of_looks hroots hapart⟩
  rw [EventOrderLemmas.session_run hroots, ← hstats]
  show EventOrderLemmas.conclude _ (target.finish.run _).1 _ = _
  rw [hfinish _ hnotes, hended]
  rfl

end Runs

theorem runsCleanly_java :
    ∀ roots ∈ [[⟨"/s/a"⟩, ⟨"/s/b"⟩], [(⟨"/s/b"⟩ : Path), ⟨"/s/a"⟩]],
      (session Java.extension ()).RunsCleanly (twinPlan Java.target) roots ⟨2, 2, 0, 0⟩ := by
  have hfinish (w : Workspace Unit) (_ : w.notes = ()) :
      Java.target.finish.run w = Emit.close.run w := rfl
  intro roots hroots
  refine runsCleanly hfinish ?_
  revert roots
  decide +kernel

theorem indexes_strangers :
    ∀ notes ∈ [[⟨[], "p"⟩, ⟨["p"], "a"⟩, ⟨[], "p"⟩, ⟨["p"], "b"⟩],
        [⟨[], "p"⟩, ⟨["p"], "b"⟩, ⟨[], "p"⟩, ⟨["p"], "a"⟩]],
      Rust.indexes notes = [([], ["p"]), (["p"], ["a", "b"])] := by
  intro notes hnotes
  rcases List.mem_pair.1 hnotes with rfl | rfl
  · cbv
  · cbv

theorem runsCleanly_rust :
    (session Rust.extension []).RunsCleanly (twinPlan Rust.target)
        [⟨"/s/a"⟩, ⟨"/s/b"⟩] ⟨2, 2, 0, 0⟩ ∧
      (session Rust.extension []).RunsCleanly (twinPlan Rust.target)
        [⟨"/s/b"⟩, ⟨"/s/a"⟩] ⟨2, 2, 0, 0⟩ := by
  have hindexes := fun notes hnotes => Rust.finish_eq_finishWith (indexes_strangers notes hnotes)
  refine ⟨runsCleanly (hindexes _ (List.mem_pair.2 (.inl rfl))) ?_,
    runsCleanly (hindexes _ (List.mem_pair.2 (.inr rfl))) ?_⟩
  · decide +kernel
  · decide +kernel

end Strangers

open Strangers in
/-- The two files get different numbers in the two orders. -/
theorem outputs_of_permuted_roots_strangers :
    (∃ plan s fs' stats stats',
      (Session.start twinSettings ⟨"/s"⟩ Java.target Java.extension ()).run system =
        (.ok (plan, s), fs') ∧
      s.RunsCleanly plan [⟨"/s/a"⟩, ⟨"/s/b"⟩] stats ∧
      s.RunsCleanly plan [⟨"/s/b"⟩, ⟨"/s/a"⟩] stats' ∧ stats = stats' ∧
      (Session.run plan [⟨"/s/a"⟩, ⟨"/s/b"⟩] s).2.workspace.SameOutput
        (Session.run plan [⟨"/s/b"⟩, ⟨"/s/a"⟩] s).2.workspace) ∧
    ∃ plan s fs' stats stats',
      (Session.start twinSettings ⟨"/s"⟩ Rust.target Rust.extension []).run system =
        (.ok (plan, s), fs') ∧
      s.RunsCleanly plan [⟨"/s/a"⟩, ⟨"/s/b"⟩] stats ∧
      s.RunsCleanly plan [⟨"/s/b"⟩, ⟨"/s/a"⟩] stats' ∧ stats = stats' ∧
      (Session.run plan [⟨"/s/a"⟩, ⟨"/s/b"⟩] s).2.workspace.SameOutput
        (Session.run plan [⟨"/s/b"⟩, ⟨"/s/a"⟩] s).2.workspace := by
  have hperm : [⟨"/s/a"⟩, ⟨"/s/b"⟩].Perm [(⟨"/s/b"⟩ : Path), ⟨"/s/a"⟩] := .swap _ _ []
  obtain ⟨hjava, hrust⟩ := outputs_of_permuted_roots isTidy_system hperm
  have hone := runsCleanly_java _ (List.mem_pair.2 (.inl rfl))
  have hother := runsCleanly_java _ (List.mem_pair.2 (.inr rfl))
  obtain ⟨hone', hother'⟩ := runsCleanly_rust
  exact ⟨⟨_, _, _, _, _, start_strangers _ _ _, hone, hother,
      hjava _ _ _ _ (start_strangers _ _ _) hone hother⟩,
    _, _, _, _, _, start_strangers _ _ _, hone', hother',
      hrust _ _ _ _ (start_strangers _ _ _) hone' hother'⟩

/-! ### A root that leads through the outputs -/

namespace Strangers

/-- A way to one of the files that is there only when something has been generated. -/
def detour : Path := ⟨"/o/p/../../s/a"⟩

end Strangers

open Strangers in
/-- A root that can be read only when something has been generated is left out if it comes first.
The same is written in both orders. -/
theorem skipped_of_permuted_roots :
    ∃ plan s fs',
      (Session.start twinSettings ⟨"/s"⟩ Java.target Java.extension ()).run system =
        (.ok (plan, s), fs') ∧
      fs'.find twinSettings.outDir = .ok (.directory .full []) ∧
      (Session.run plan [detour, ⟨"/s/a"⟩] s).1 = .ok ⟨1, 1, 0, 1⟩ ∧
      (Session.run plan [detour, ⟨"/s/a"⟩] s).2.workspace.output.written = [⟨"/o/p/M.java"⟩] ∧
      (Session.run plan [⟨"/s/a"⟩, detour] s).1 = .ok ⟨1, 1, 0, 0⟩ ∧
      (Session.run plan [⟨"/s/a"⟩, detour] s).2.workspace.output.written = [⟨"/o/p/M.java"⟩] := by
  refine ⟨_, _, _, start_strangers _ _ _, empty_beside _, ?_⟩
  have hruns :
      (∃ r ∈ (session Java.extension ()).runWithin (twinPlan Java.target) 1
        Java.target.finish [detour, ⟨"/s/a"⟩], r.2.2.1 = .ok ⟨1, 1, 0, 1⟩ ∧
          r.2.2.2.workspace.output.written = [⟨"/o/p/M.java"⟩]) ∧
      ∃ r ∈ (session Java.extension ()).runWithin (twinPlan Java.target) 1
        Java.target.finish [⟨"/s/a"⟩, detour], r.2.2.1 = .ok ⟨1, 1, 0, 0⟩ ∧
          r.2.2.2.workspace.output.written = [⟨"/o/p/M.java"⟩] := by
    decide +kernel
  obtain ⟨⟨_, hfirst, hok, hwritten⟩, _, hlast, h⟩ := hruns
  rw [(Session.run_of_within hfirst fun _ _ => rfl).1,
    (Session.run_of_within hlast fun _ _ => rfl).1]
  exact ⟨hok, hwritten, h⟩

/-! ### Outputs that leave their place -/

namespace Strangers

/-- The two orders of the two files. -/
def orders : List (List Path) := [[⟨"/s/a"⟩, ⟨"/s/b"⟩], [⟨"/s/b"⟩, ⟨"/s/a"⟩]]

/-- A file whose Java source can be read as a schema file with an ignored message, and one more. -/
def overwriting : List (String × Node) :=
  [("a", .text ("package p;option java_package=\"q;/*./\";" ++
      "//*/message Q\x7boption ignore=true;reserved/*\nmessage M\x7bint32 x=1;\x7d")),
    ("b", .text "package d;message N\x7b\x7d")]

theorem run_java {s : Session Unit} {roots : List Path}
    {r : List Visit × Except RunError Unit × Session Unit}
    (hwithin : r ∈ s.rootsWithin (twinPlan Java.target) 1 roots) (hok : r.2.1 = .ok ())
    (hclosed : r.2.2.workspace.output.current = none) :
    (roots.forM (Run.root (twinPlan Java.target))).run s = (.ok (), r.2.2) ∧
      Session.run (twinPlan Java.target) roots s = (.ok r.2.2.stats, r.2.2) := by
  obtain ⟨_, _, after⟩ := r
  subst hok
  have hroots := (BoundedRunsLemmas.roots_of_within hwithin).1
  refine ⟨hroots, ?_⟩
  rw [EventOrderLemmas.session_run hroots, show (twinPlan Java.target).target.finish.run _ = _ from
    Emit.close_run after.workspace, Workspace.closed_of_closed hclosed]
  rfl

end Strangers

open Strangers in
/-- Outputs with different paths can be one file, which then holds what was written to it last. -/
theorem contents_of_permuted_roots :
    ∃ plan s fs',
      (Session.start { twinSettings with fileExt := some "/../Z" } ⟨"/s"⟩ Java.target
        Java.extension ()).run system = (.ok (plan, s), fs') ∧
      (∀ roots ∈ orders, (Session.run plan roots s).1 = .ok ⟨2, 2, 0, 0⟩ ∧
        s.Undisturbed plan roots ∧ (Session.run plan roots s).2.workspace.output.written.Nodup) ∧
      ¬ (Session.run plan [⟨"/s/a"⟩, ⟨"/s/b"⟩] s).2.workspace.SameOutput
        (Session.run plan [⟨"/s/b"⟩, ⟨"/s/a"⟩] s).2.workspace := by
  have hruns : ∀ roots ∈ orders, ∃ r ∈ (schemaSession "/../Z" () entries).rootsWithin
      (twinPlan Java.target) 1 roots, r.2.1 = .ok () ∧ r.2.2.workspace.output.current = none ∧
        r.2.2.stats = ⟨2, 2, 0, 0⟩ ∧
        (schemaSession "/../Z" () entries).looksSteady (twinPlan Java.target)
          (schemaSystemWithOutput entries) roots r.2.2 = true ∧
        r.2.2.looksSpared = true ∧ r.2.2.workspace.output.written.Nodup ∧
        -- The message M is in the file only if the first one of the files comes last.
        (r.2.2.workspace.files.contents? ["o", "p", "Z"]).map (·.data.contains 0x4D) =
          some (decide (roots.getLast? = some ⟨"/s/a"⟩)) := by
    decide +kernel
  refine ⟨twinPlan Java.target, schemaSession "/../Z" () entries, _,
    start_beside _ _ _ rfl (some "/../Z") entries, fun roots hmem => ?_, fun hsame => ?_⟩
  · obtain ⟨r, hwithin, hok, hclosed, hstats, hsteady, hspared, hnodup, -⟩ := hruns roots hmem
    obtain ⟨hroots, hrun⟩ := run_java hwithin hok hclosed
    rw [hrun, hstats]
    exact ⟨rfl, ⟨Session.steady_of_looks hroots hsteady,
      Session.sources_of_looks hroots hspared⟩, hnodup⟩
  · obtain ⟨r, hwithin, hok, hclosed, -, -, -, -, hlast⟩ := hruns _ (List.mem_pair.2 (.inl rfl))
    obtain ⟨r', hwithin', hok', hclosed', -, -, -, -, hlast'⟩ :=
      hruns _ (List.mem_pair.2 (.inr rfl))
    rw [(run_java hwithin hok hclosed).2, (run_java hwithin' hok' hclosed').2] at hsame
    rw [hsame.contents, hlast'] at hlast
    cases hlast

open Strangers in
/-- An output can lie at the place of a schema file, which one order has read before and the other
one reads after that. -/
theorem stats_of_permuted_roots :
    ∃ plan s fs',
      (Session.start { twinSettings with fileExt := some "/../s/b" } ⟨"/s"⟩ Java.target
        Java.extension ()).run (schemaSystem overwriting) =
          (.ok (plan, s), fs') ∧
      ∀ roots ∈ orders, s.KeepsApart plan roots ∧
        (∀ root ∈ roots,
          plan.rootFiles (s.walked plan roots).workspace.files s.catalog.root root =
            plan.rootFiles s.workspace.files s.catalog.root root) ∧
        (Session.run plan roots s).1 =
          .ok ⟨2, if roots.getLast? = some ⟨"/s/a"⟩ then 2 else 1, 0, 0⟩ := by
  have hruns : ∀ roots ∈ orders, ∃ r ∈ (schemaSession "/../s/b" () overwriting).rootsWithin
      (twinPlan Java.target) 1 roots, r.2.1 = .ok () ∧ r.2.2.workspace.output.current = none ∧
        r.2.2.stats = ⟨2, if roots.getLast? = some ⟨"/s/a"⟩ then 2 else 1, 0, 0⟩ ∧
        (schemaSession "/../s/b" () overwriting).looksSteady (twinPlan Java.target)
          (schemaSystemWithOutput overwriting) roots r.2.2 = true ∧ r.2.2.looksApart = true := by
    decide +kernel
  refine ⟨twinPlan Java.target, schemaSession "/../s/b" () overwriting, _,
    start_beside _ _ _ rfl (some "/../s/b") overwriting, fun roots hmem => ?_⟩
  obtain ⟨r, hwithin, hok, hclosed, hstats, hsteady, hapart⟩ := hruns roots hmem
  obtain ⟨hroots, hrun⟩ := run_java hwithin hok hclosed
  rw [hrun, hstats]
  exact ⟨Session.keepsApart_of_looks hroots hapart, Session.steady_of_looks hroots hsteady, rfl⟩

end SchemaGen
