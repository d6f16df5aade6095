import SchemaGen.Proofs.LoadExact
import SchemaGen.Proofs.View

/-!
# Loading does not depend on what was loaded before

A catalog that has loaded some files answers a load without reading these again, and it has numbered
its files differently from a new one. Still both give the same answer. A file that is loaded is
loadable, so a new catalog succeeds on it as well; and what fails to load is not loaded anywhere, so
both catalogs go the same way to the error.

Results:
1. `build_view`, `Built.view_eq`: in any two graphs, files at the same location look alike.
2. `Loads.fails_alike`: in any two catalogs, a load fails with the same error.
3. `load_history_free`: a load has the same answer in a new catalog and in one with a history.
-/

namespace SchemaGen

open Relation

/-! ## Definitions -/

/-- The path that a number stands for, and `q` for a number of no file. -/
def Graph.pathOf (g : Graph) (q : Path) (id : FileId) : Path :=
  ((g.file? id).map (·.path)).getD q

/-- `ν` gives the files of the graph their paths. -/
def Graph.Named (g : Graph) (ν : FileId → Path) : Prop :=
  ∀ i f, g.file? i = some f → ν i = f.path

/-- File `i` of one graph and file `j` of the other lie at the same location. -/
def Twin (g g' : Graph) (i j : FileId) : Prop :=
  ∃ m, g.locations[i]? = some m ∧ g'.locations[j]? = some m

theorem Graph.named_pathOf (g : Graph) (q : Path) : g.Named (g.pathOf q) := by
  intro i f hf
  rw [pathOf, hf]
  rfl

variable {g g' : Graph} {ν : FileId → Path} {fs : FileSystem}

theorem Graph.Named.mono (h : g'.Named ν) (hgrows : g.files <+: g'.files) : g.Named ν :=
  fun i f hf => h i f (file?_mono hgrows hf)

/-! ## 1. Files at the same location -/

namespace LoadHistoryLemmas

theorem addNew_related {R : FileId → FileId → Prop} (hR : Relator.BiUnique R)
    {ids ids' : List FileId} {i j : FileId} (hids : List.Forall₂ R ids ids') (hij : R i j) :
    List.Forall₂ R (Graph.addNew ids i) (Graph.addNew ids' j) := by
  have hmem : i ∈ ids ↔ j ∈ ids' := List.rel_mem hR hij hids
  rw [Graph.addNew, Graph.addNew]
  by_cases hi : i ∈ ids
  · rw [if_pos (by simpa using hi), if_pos (by simpa using hmem.1 hi)]
    exact hids
  · rw [if_neg (by simpa using hi), if_neg (by simpa using fun hj => hi (hmem.2 hj))]
    exact List.rel_append hids (.cons hij .nil)

section Twins

variable {fs : FileSystem} {root : Path} {g g' : Graph} {ν ν' : FileId → Path} {i j : FileId}

theorem twin_of_files {f f' : SchemaFile} (hf : g.file? i = some f) (hf' : g'.file? j = some f')
    (h : f.location = f'.location) : Twin g g' i j :=
  ⟨f'.location, h ▸ Graph.location?_of_file? hf, Graph.location?_of_file? hf'⟩

theorem files_of_twin (h : Twin g g' i j) :
    ∃ f f', g.file? i = some f ∧ g'.file? j = some f' ∧ f.location = f'.location := by
  obtain ⟨m, hi, hj⟩ := h
  obtain ⟨f, hf, rfl⟩ := Graph.exists_file_of_location? hi
  obtain ⟨f', hf', heq⟩ := Graph.exists_file_of_location? hj
  exact ⟨f, f', hf, hf', heq.symm⟩

theorem twin_biUnique (hg : Built fs root g) (hg' : Built fs root g') :
    Relator.BiUnique (Twin g g') := by
  constructor
  · rintro i i' j ⟨m, hi, hj⟩ ⟨m', hi', hj'⟩
    obtain rfl := Option.some.inj (hj.symm.trans hj')
    exact hg.location?_inj hi hi'
  · rintro i j j' ⟨m, hi, hj⟩ ⟨m', hi', hj'⟩
    obtain rfl := Option.some.inj (hi.symm.trans hi')
    exact hg'.location?_inj hj hj'

/-- Closures of twins are twins, if what they depend on are twins. -/
theorem closure_twins (hT : Relator.BiUnique (Twin g g'))
    (hdependencies : ∀ i j, Twin g g' i j →
      List.Forall₂ (Twin g g') (g.dependenciesOf i) (g'.dependenciesOf j))
    {direct direct' : List FileId} (h : List.Forall₂ (Twin g g') direct direct') :
    List.Forall₂ (Twin g g') (g.closure direct) (g'.closure direct') := by
  have hstream := List.rel_flatMap h
    (fun i j hij => List.rel_append (hdependencies i j hij) (.cons hij .nil))
  exact List.rel_foldl (P := List.Forall₂ (Twin g g')) (R := Twin g g')
    (fun _ _ hids _ _ hij => addNew_related hT hids hij) .nil hstream

/-- The same import leads to twins. -/
theorem imported_twins (hg : Built fs root g) (hg' : Built fs root g') {paths : List String}
    {ids ids' : List FileId} (h : List.Forall₂ (LeadsTo fs root g) paths ids)
    (h' : List.Forall₂ (LeadsTo fs root g') paths ids') : List.Forall₂ (Twin g g') ids ids' := by
  induction h generalizing ids' with
  | nil =>
    cases h'
    exact .nil
  | cons hid _ ih =>
    cases h' with
    | cons hid' hrest' =>
      obtain ⟨m, hm, hfound⟩ := hid
      obtain ⟨m', hm', hfound'⟩ := hid'
      obtain rfl := Except.ok.inj (hm.symm.trans hm')
      have hplain := hg.plain_of_leads hm
      refine .cons ⟨m, ?_, ?_⟩ (ih hrest')
      · exact (hg.find?_path_eq_some_iff hplain).1 hfound
      · exact (hg'.find?_path_eq_some_iff hplain).1 hfound'

/-- Files that look alike depend on twins, since a path in a view is the path of a file. -/
theorem dependencies_twins (hg : Built fs root g) (hg' : Built fs root g') (hν : g.Named ν)
    (hν' : g'.Named ν') {f f' : SchemaFile} (hf : g.file? i = some f) (hf' : g'.file? j = some f')
    (hview : f.view ν = f'.view ν') : List.Forall₂ (Twin g g') f.dependencies f'.dependencies := by
  have hexists {g : Graph} {f : SchemaFile} {i : FileId} (hg : Built fs root g)
      (hf : g.file? i = some f) : ∀ k ∈ f.dependencies, ∃ e, g.file? k = some e := by
    intro k hk
    have hi : i < g.nextId := Graph.lt_of_location? (Graph.location?_of_file? hf)
    have hlt : k < g.files.length := Nat.lt_trans ((hg.tracked hf).lt k hk) hi
    exact ⟨g.files[k], List.getElem?_eq_getElem hlt⟩
  -- Equal paths say something about files only where the numbers are those of files.
  have hpaths : List.Forall₂ (fun k k' => ν k = ν' k') f.dependencies f'.dependencies := by
    have heq : f.dependencies.map ν = f'.dependencies.map ν' := congrArg FileView.dependencies hview
    rw [← List.forall₂_eq_eq_eq, List.forall₂_map_left_iff, List.forall₂_map_right_iff] at heq
    exact heq
  have hleft := (List.forall₂_and_left _ _).2 ⟨hexists hg hf, hpaths⟩
  have hboth := (List.forall₂_and_left _ _).2 ⟨hexists hg' hf', hleft.flip⟩
  refine hboth.flip.imp ?_
  rintro k k' ⟨⟨e', he'⟩, ⟨e, he⟩, hpath⟩
  rw [hν k e he, hν' k' e' he'] at hpath
  exact twin_of_files he he' (congrArg Path.pieces hpath)

end Twins

end LoadHistoryLemmas

open LoadHistoryLemmas

/-- The files built at the same location of two graphs look alike, if the files in the graphs do. -/
theorem build_view {root : Path} {ν' : FileId → Path} {l : Location} {d : Document}
    {imported imported' : List FileId} (hg : Built fs root g) (hg' : Built fs root g')
    (hν : g.Named ν) (hν' : g'.Named ν')
    (halike : ∀ i j f f', g.file? i = some f → g'.file? j = some f' → f.location = f'.location →
      f.view ν = f'.view ν') (hself : ν g.nextId = ν' g'.nextId)
    (h : Prepared fs root g l d imported) (h' : Prepared fs root g' l d imported') :
    (Catalog.build root g l d imported).map (·.view ν) =
      (Catalog.build root g' l d imported').map (·.view ν') := by
  have hclosure : List.Forall₂ (Twin g g') (g.closure imported) (g'.closure imported') := by
    refine closure_twins (twin_biUnique hg hg') (fun i j hij => ?_)
      (imported_twins hg hg' h.leads h'.leads)
    obtain ⟨f, f', hf, hf', hlocation⟩ := files_of_twin hij
    rw [DependenciesLemmas.dependenciesOf_eq hf, DependenciesLemmas.dependenciesOf_eq hf']
    exact dependencies_twins hg hg' hν hν' hf hf' (halike i j f f' hf hf' hlocation)
  have hfiles : List.Forall₂ (fun i j => ∃ f f', g.file? i = some f ∧ g'.file? j = some f' ∧
      f.view ν = f'.view ν') (g.closure imported) (g'.closure imported') := by
    refine hclosure.imp fun i j hij => ?_
    obtain ⟨f, f', hf, hf', hlocation⟩ := files_of_twin hij
    exact ⟨f, f', hf, hf', halike i j f f' hf hf' hlocation⟩
  have hpaths : (g.closure imported).map ν = (g'.closure imported').map ν' := by
    rw [← List.forall₂_eq_eq_eq, List.forall₂_map_left_iff, List.forall₂_map_right_iff]
    refine hfiles.imp ?_
    rintro i j ⟨f, f', hf, hf', hview⟩
    rw [hν i f hf, hν' j f' hf']
    exact congrArg FileView.path hview
  refine fill_view ?_ hfiles d
  simp only [SchemaFile.view, SchemaFile.empty, hself, hpaths]
  rfl

/-- Whatever was loaded in which order, files at the same location look alike. -/
theorem Built.view_eq {root : Path} {ν' : FileId → Path} (hg : Built fs root g)
    (hg' : Built fs root g') (hν : g.Named ν) (hν' : g'.Named ν') {i j : FileId} {f f' : SchemaFile}
    (hf : g.file? i = some f) (hf' : g'.file? j = some f') (hlocation : f.location = f'.location) :
    f.view ν = f'.view ν' := by
  induction hg generalizing g' i j f f' with
  | empty => cases hf
  | @insert g l d imported e built next ih =>
    have hν₀ := hν.mono next.prefix_insert
    rcases next.file?_insert_iff.1 hf with hold | ⟨rfl, rfl⟩
    · exact ih hg' hν₀ hν' hold hf' hlocation
    -- The file was built last here, and there from the files before it.
    obtain ⟨g₀', l', d', imported', hg₀', hnext', hgrows, rfl⟩ := hg'.origin hf'
    rw [next.location_eq, hnext'.location_eq] at hlocation
    subst hlocation
    obtain rfl := next.holds.unique hnext'.holds
    have hν₀' := hν'.mono hgrows
    have hself : ν g.nextId = ν' g₀'.nextId := by
      rw [hν _ f hf, hν' _ f' hf', next.path_eq, hnext'.path_eq]
    have hbuild := build_view built hg₀' hν₀ hν₀'
      (fun _ _ _ _ hf hf' => ih hg₀' hν₀ hν₀' hf hf') hself next.toPrepared hnext'.toPrepared
    rw [next.built, hnext'.built] at hbuild
    exact Except.ok.inj hbuild

/-! ## 2. Loads that fail -/

/-- Two catalogs that may have loaded different files while they are loading the same ones. -/
structure Beside (fs : FileSystem) (c c' : Catalog) : Prop where
  left : Sound fs c
  right : Sound fs c'
  root : c'.root = c.root
  loading : c'.loading = c.loading

namespace Beside

variable {fs : FileSystem} {c c' : Catalog}

theorem enter (h : Beside fs c c') {l : Location} (hl : l.IsPlain)
    (hnew : c.loaded? l.path = none) (hnew' : c'.loaded? l.path = none) :
    Beside fs (c.enter l) (c'.enter l) :=
  ⟨h.left.enter hl hnew, h.right.enter hl hnew', h.root, congrArg (l :: ·) h.loading⟩

variable {r : Request}

theorem keeps (h : Beside fs c c') {result result' : Except LoadError (List FileId)}
    {after after' : Catalog} (hkeeps : Keeps fs c r result after)
    (hkeeps' : Keeps fs c' r result' after') : Beside fs after after' :=
  ⟨hkeeps.sound, hkeeps'.sound, (hkeeps'.root.trans h.root).trans hkeeps.root.symm,
    (hkeeps'.loading.trans h.loading).trans hkeeps.loading.symm⟩

theorem admitted (h : Beside fs c c') (hr : r.Admitted c) : r.Admitted c' := by
  cases r with
  | file l => exact ⟨hr.1, h.loading ▸ hr.2⟩
  | imports file paths => exact trivial

theorem chained (h : Beside fs c c') (hr : r.Chained fs c) : r.Chained fs c' := by
  cases r with
  | file l =>
    rw [Request.Chained, h.root, h.loading]
    exact hr
  | imports file paths =>
    rw [Request.Chained, h.root, h.loading]
    exact hr

end Beside

namespace Loads

variable {fs : FileSystem} {c c₁ : Catalog} {r : Request}

/-- What was loaded is loadable. -/
theorem loadable {ids : List FileId} (h : Loads fs c r (.ok ids) c₁) (hc : Sound fs c)
    (hr : r.Admitted c) : r.IsLoadable fs c.root := by
  obtain ⟨hsound, hroot, -, -, hanswered, -⟩ := h.keeps hc hr
  have hbuilt := hsound.built
  rw [hroot] at hbuilt
  have hfound {l : Location} {id : FileId} (hl : l.IsPlain)
      (hid : c₁.graph.find? l.path = some id) : Loadable fs c.root l := by
    obtain ⟨f, hf, rfl⟩ := hbuilt.exists_file_of_find? hl hid
    exact hbuilt.loadable hf
  cases r with
  | file l =>
    obtain ⟨id, -, hid⟩ := hanswered ids rfl
    exact hfound hr.1 hid
  | imports file paths =>
    intro path hpath
    obtain ⟨id, -, l, hl, hid⟩ := DependenciesLemmas.exists_of_mem_left (hanswered ids rfl) hpath
    exact ⟨l, hl, hfound (hbuilt.plain_of_leads hl) hid⟩

end Loads

namespace LoadHistoryLemmas

variable {fs : FileSystem} {c : Catalog} {l : Location}

/-- A file that cannot be loaded is loaded in no catalog. -/
theorem loaded?_eq_none (hc : Sound fs c) (hr : (Request.file l).Admitted c)
    (hnot : ¬ Loadable fs c.root l) : c.loaded? l.path = none := by
  cases hloaded : c.loaded? l.path with
  | none => rfl
  | some id => exact absurd ((Loads.known hloaded).loadable hc hr) hnot

theorem pathOf_nextId (g : Graph) (q : Path) : g.pathOf q g.nextId = q := by
  simp [Graph.pathOf, Graph.file?, Graph.nextId]

/-- A file that is refused in one catalog is refused in the other. -/
theorem build_fails_alike {c' : Catalog} {d : Document} {imported imported' : List FileId}
    {e : LoadError} (h : Beside fs c c') (hprepared : Prepared fs c.root c.graph l d imported)
    (hprepared' : Prepared fs c'.root c'.graph l d imported')
    (hbuild : Catalog.build c.root c.graph l d imported = .error e) :
    Catalog.build c'.root c'.graph l d imported' = .error e := by
  have hbuilt' := h.right.built
  rw [h.root] at hbuilt' hprepared' ⊢
  have hν := c.graph.named_pathOf l.path
  have hν' := c'.graph.named_pathOf l.path
  have hself : c.graph.pathOf l.path c.graph.nextId = c'.graph.pathOf l.path c'.graph.nextId := by
    rw [pathOf_nextId, pathOf_nextId]
  have hviews := build_view h.left.built hbuilt' hν hν'
    (fun _ _ _ _ hf hf' => h.left.built.view_eq hbuilt' hν hν' hf hf') hself hprepared hprepared'
  rw [hbuild] at hviews
  cases hresult : Catalog.build c.root c'.graph l d imported' with
  | error e' =>
    rw [hresult] at hviews
    exact congrArg Except.error (Except.error.inj hviews).symm
  | ok f =>
    rw [hresult] at hviews
    cases hviews

/-- A file that one catalog fails to load is not loaded in the other. -/
theorem new_beside {c₁ c' : Catalog} {e : LoadError} (h : Loads fs c (.file l) (.error e) c₁)
    (hb : Beside fs c c') (hr : (Request.file l).Admitted c)
    (hchained : (Request.file l).Chained fs c) : c'.loaded? l.path = none := by
  refine loaded?_eq_none hb.right (hb.admitted hr) fun hloadable => ?_
  rw [hb.root] at hloadable
  obtain ⟨ids, ⟨⟩⟩ := h.succeeds hb.left hr hchained hloadable

section Inversion

variable {fs : FileSystem} {c c' : Catalog} {l : Location}
  {result : Except LoadError (List FileId)}

theorem unread_inv {e : LoadError} (h : Loads fs c (.file l) result c')
    (hnew : c.loaded? l.path = none) (hread : Catalog.read fs c.root l = .error e) :
    result = .error e := by
  cases h with
  | known hloaded => cases hnew.symm.trans hloaded
  | unread _ hread' => rw [Except.error.inj (hread.symm.trans hread')]
  | stuck _ hread' | refused _ hread' | added _ hread' => cases hread.symm.trans hread'

theorem read_inv {d : Document} (h : Loads fs c (.file l) result c')
    (hnew : c.loaded? l.path = none) (hread : Catalog.read fs c.root l = .ok d) :
    ∃ imports after,
      Loads fs (c.enter l) (.imports (Catalog.nameOf c.root l) d.imports) imports after ∧
        ((∃ e, imports = .error e ∧ result = .error e) ∨
          ∃ imported, imports = .ok imported ∧
            result = (Catalog.build after.root after.graph l d imported).map
              fun _ => [after.graph.nextId]) := by
  cases h with
  | known hloaded => cases hnew.symm.trans hloaded
  | unread _ hread' => cases hread.symm.trans hread'
  | stuck _ hread' himports =>
    obtain rfl := Except.ok.inj (hread.symm.trans hread')
    exact ⟨_, _, himports, .inl ⟨_, rfl, rfl⟩⟩
  | refused _ hread' himports hbuild =>
    obtain rfl := Except.ok.inj (hread.symm.trans hread')
    exact ⟨_, _, himports, .inr ⟨_, rfl, by rw [hbuild]; rfl⟩⟩
  | added _ hread' himports hbuild =>
    obtain rfl := Except.ok.inj (hread.symm.trans hread')
    exact ⟨_, _, himports, .inr ⟨_, rfl, by rw [hbuild]; rfl⟩⟩

theorem import_inv {file path : String} {paths : List String}
    (h : Loads fs c (.imports file (path :: paths)) result c')
    (hpath : fs.canonicalize (c.root / path) = .ok l) (hloading : l ∉ c.loading) :
    ∃ first after, Loads fs c (.file l) first after ∧
      ((∃ e, first = .error e ∧ result = .error (Catalog.importError file path e)) ∨
        ∃ id rest final, first = .ok [id] ∧ Loads fs after (.imports file paths) rest final ∧
          result = rest.map (id :: ·)) := by
  rcases h.imports_inv with ⟨cause, hpath', -⟩ | ⟨l', hpath', hend⟩
  · rw [hpath] at hpath'
    cases hpath'
  · obtain rfl := Except.ok.inj (hpath.symm.trans hpath')
    rcases hend with ⟨hloading', -⟩ | ⟨-, hend⟩
    · exact absurd hloading' hloading
    · exact hend

end Inversion

end LoadHistoryLemmas

/-- If a load fails, it fails with the same error in a catalog that is loading the same files. -/
theorem Loads.fails_alike {c c₁ c' c₁' : Catalog} {r : Request}
    {result result' : Except LoadError (List FileId)} (h : Loads fs c r result c₁)
    (h' : Loads fs c' r result' c₁') (hb : Beside fs c c') (hr : r.Admitted c)
    (hchained : r.Chained fs c) {e : LoadError} (he : result = .error e) : result' = .error e := by
  induction h generalizing c' result' c₁' e with
  | known => cases he
  | unread hnew hread =>
    cases he
    exact unread_inv h' (new_beside (.unread hnew hread) hb hr hchained) (hb.root ▸ hread)
  | @stuck c after l d e hnew hread himports ih =>
    cases he
    have hnew' := new_beside (.stuck hnew hread himports) hb hr hchained
    obtain ⟨imports', after', himports', hend⟩ := read_inv h' hnew' (hb.root ▸ hread)
    rw [hb.root] at himports'
    have hfails := ih himports' (hb.enter hr.1 hnew hnew') trivial
      (hchained.enter (Catalog.read_eq_ok_iff.1 hread) _) rfl
    rcases hend with ⟨e', he', hresult⟩ | ⟨imported', hok, -⟩
    · rw [hresult, ← he', hfails]
    · rw [hfails] at hok
      cases hok
  | @refused c after l d imported e hnew hread himports hbuild ih =>
    cases he
    have hnew' := new_beside (.refused hnew hread himports hbuild) hb hr hchained
    obtain ⟨imports', after', himports', hend⟩ := read_inv h' hnew' (hb.root ▸ hread)
    rw [hb.root] at himports'
    have hb' := hb.enter hr.1 hnew hnew'
    -- The imports are loaded in both catalogs, so both come to build the file.
    obtain ⟨imported', rfl⟩ := himports'.succeeds hb'.right trivial
      (hb'.chained (hchained.enter (Catalog.read_eq_ok_iff.1 hread) _))
      (hb'.root.symm ▸ himports.loadable hb'.left trivial)
    have hkeeps := himports.keeps hb'.left trivial
    have hkeeps' := himports'.keeps hb'.right trivial
    rcases hend with ⟨e', ⟨⟩, -⟩ | ⟨_, ⟨⟩, hresult⟩
    rw [hresult, build_fails_alike (hb'.keeps hkeeps hkeeps') (hkeeps.prepared hr.1 hread)
      (hkeeps'.prepared hr.1 (hb.root ▸ hread)) hbuild]
    rfl
  | added => cases he
  | done => cases he
  | @unresolved c file path paths cause hpath =>
    cases he
    rw [← hb.root] at hpath
    rcases h'.imports_inv with ⟨_, -, hresult⟩ | ⟨l', hpath', -⟩
    · exact hresult
    · rw [hpath] at hpath'
      cases hpath'
  | @cycle c file path paths l hpath hloading =>
    cases he
    rw [← hb.root] at hpath
    rw [← hb.loading] at hloading
    rcases h'.imports_inv with ⟨cause, hpath', -⟩ | ⟨l', hpath', hend⟩
    · rw [hpath] at hpath'
      cases hpath'
    · obtain rfl := Except.ok.inj (hpath.symm.trans hpath')
      rcases hend with ⟨-, hresult⟩ | ⟨hloading', -⟩
      · exact hresult
      · exact absurd hloading hloading'
  | @failed c after file path paths l e hpath hloading hfirst ih =>
    cases he
    obtain ⟨first', after', hfirst', hend⟩ :=
      import_inv h' (hb.root ▸ hpath) (hb.loading ▸ hloading)
    have hfails := ih hfirst' hb ⟨hb.left.built.plain_of_leads hpath, hloading⟩
      (hchained path List.mem_cons_self l hpath) rfl
    rcases hend with ⟨e', he', hresult⟩ | ⟨id', _, _, hok, -⟩
    · rw [hfails] at he'
      rw [hresult, Except.error.inj he']
    · rw [hfails] at hok
      cases hok
  | @nextFails c after final file path paths l id e hpath hloading hfirst hrest ih ih' =>
    cases he
    obtain ⟨first', after', hfirst', hend⟩ :=
      import_inv h' (hb.root ▸ hpath) (hb.loading ▸ hloading)
    have hadmitted : (Request.file l).Admitted c := ⟨hb.left.built.plain_of_leads hpath, hloading⟩
    have hchained₁ : (Request.file l).Chained fs c := hchained path List.mem_cons_self l hpath
    obtain ⟨ids', rfl⟩ := hfirst'.succeeds hb.right (hb.admitted hadmitted) (hb.chained hchained₁)
      (hb.root.symm ▸ hfirst.loadable hb.left hadmitted)
    have hkeeps := hfirst.keeps hb.left hadmitted
    have hkeeps' := hfirst'.keeps hb.right (hb.admitted hadmitted)
    rcases hend with ⟨e', ⟨⟩, -⟩ | ⟨id', rest', final', ⟨⟩, hrest', hresult⟩
    have hfails := ih' hrest' (hb.keeps hkeeps hkeeps') trivial
      (hchained.next hkeeps.root hkeeps.loading) rfl
    rw [hresult, hfails]
    rfl
  | next => cases he

/-! ## 3. Loads after other loads -/

namespace LoadHistoryLemmas

variable {fs : FileSystem} {c c' : Catalog} {p : Path}

theorem load_fails_alike (hc : Settled fs c) (hc' : Settled fs c') (hroot : c'.root = c.root)
    {e : LoadError} (he : ((Catalog.load fs p).run c).1 = .error e) :
    ((Catalog.load fs p).run c').1 = .error e := by
  cases hl : fs.canonicalize (c.root.join p) with
  | error cause =>
    rw [Catalog.load_of_error hl] at he
    rw [Catalog.load_of_error (hroot ▸ hl), hroot]
    exact he
  | ok l =>
    have hb : Beside fs c c' := ⟨hc.toSound, hc'.toSound, hroot, hc'.idle.trans hc.idle.symm⟩
    rw [Catalog.load_of_ok hl] at he
    rw [Catalog.load_of_ok (hroot ▸ hl)]
    have hfails := ((Catalog.loads_both fs).1 c l).fails_alike ((Catalog.loads_both fs).1 c' l) hb
      (hc.admitted hl) (hc.chained l) (congrArg (Except.map ([·])) he)
    cases hresult : (Catalog.loadAt fs c' l).val.1 with
    | error e' =>
      rw [hresult] at hfails
      exact congrArg Except.error (Except.error.inj hfails)
    | ok id =>
      rw [hresult] at hfails
      cases hfails

theorem load_files_alike (hc : Settled fs c) (hc' : Settled fs c') (hroot : c'.root = c.root)
    {id id' : FileId} (hid : ((Catalog.load fs p).run c).1 = .ok id)
    (hid' : ((Catalog.load fs p).run c').1 = .ok id') :
    ∃ f f', ((Catalog.load fs p).run c).2.graph.file? id = some f ∧
      ((Catalog.load fs p).run c').2.graph.file? id' = some f' ∧
      ∀ q q', f.view (((Catalog.load fs p).run c).2.graph.pathOf q) =
        f'.view (((Catalog.load fs p).run c').2.graph.pathOf q') := by
  obtain ⟨hafter, hkept, -, hfound⟩ := hc.load p
  obtain ⟨hafter', hkept', -, hfound'⟩ := hc'.load p
  obtain ⟨l, hl, hplain, hlookup, -⟩ := hfound id hid
  obtain ⟨l', hl', -, hlookup', -⟩ := hfound' id' hid'
  rw [hroot] at hl'
  obtain rfl := Except.ok.inj (hl.symm.trans hl')
  have hbuilt := hafter.built
  have hbuilt' := hafter'.built
  rw [hkept] at hbuilt
  rw [hkept', hroot] at hbuilt'
  obtain ⟨f, hf, hlocation⟩ := hbuilt.exists_file_of_find? hplain hlookup
  obtain ⟨f', hf', hlocation'⟩ := hbuilt'.exists_file_of_find? hplain hlookup'
  refine ⟨f, f', hf, hf', fun q q' => ?_⟩
  exact hbuilt.view_eq hbuilt' (Graph.named_pathOf _ q) (Graph.named_pathOf _ q') hf hf'
    (hlocation.trans hlocation'.symm)

end LoadHistoryLemmas

/-- A load has the same answer in a new catalog and in one that other loads, of whatever results,
have led to. It fails in both with the same error, or it succeeds in both, with files that are equal
once numbers are replaced by the paths they stand for. Numbers that stand for no file do not occur:
they might be replaced by any path `q` on one side and any `q'` on the other. -/
theorem load_history_free {fs : FileSystem} {dir : Path} {start c : Catalog}
    (hstart : Catalog.ofRoot fs dir = .ok start) (hc : Reached fs start c) (p : Path) :
    let fresh := (Catalog.load fs p).run start
    let later := (Catalog.load fs p).run c
    (∃ e, fresh.1 = .error e ∧ later.1 = .error e) ∨
      ∃ id f id' f', fresh.1 = .ok id ∧ fresh.2.graph.file? id = some f ∧
        later.1 = .ok id' ∧ later.2.graph.file? id' = some f' ∧
        ∀ q q', f.view (fresh.2.graph.pathOf q) = f'.view (later.2.graph.pathOf q') := by
  intro fresh later
  have hsettled := Settled.of_ofRoot hstart
  obtain ⟨hsettled', hroot⟩ := hc.settled hsettled
  cases hfresh : fresh.1 with
  | error e => exact .inl ⟨e, rfl, load_fails_alike hsettled hsettled' hroot hfresh⟩
  | ok id =>
    cases hlater : later.1 with
    | error e =>
      have hfails := load_fails_alike hsettled' hsettled hroot.symm hlater
      rw [hfresh] at hfails
      cases hfails
    | ok id' =>
      obtain ⟨f, f', hf, hf', hview⟩ := load_files_alike hsettled hsettled' hroot hfresh hlater
      exact .inr ⟨id, f, id', f', rfl, hf, rfl, hf', hview⟩

/-- A file whose import another load has left behind looks as in a new catalog. -/
theorem load_history_free_after_failure :
    Catalog.ofRoot sharedImport ⟨"/s"⟩ = .ok (nothingLoaded []) ∧
      Reached sharedImport (nothingLoaded []) (sharedLoaded []) ∧
      ∃ id f, ((Catalog.load sharedImport ⟨"a"⟩).run (nothingLoaded [])).1 = .ok id ∧
        ((Catalog.load sharedImport ⟨"a"⟩).run (nothingLoaded [])).2.graph.file? id = some f ∧
        ∀ q q',
          f.view (((Catalog.load sharedImport ⟨"a"⟩).run (nothingLoaded [])).2.graph.pathOf q) =
            sharingFile.view (((sharedLoaded []).add ["s", "a"] sharingFile).graph.pathOf q') := by
  have hroot : Catalog.ofRoot sharedImport ⟨"/s"⟩ = .ok (nothingLoaded []) := by decide +kernel
  have hreached : Reached sharedImport (nothingLoaded []) _ := .load ⟨"c"⟩ .start
  rw [load_missingImport] at hreached
  refine ⟨hroot, hreached, ?_⟩
  have hfree := load_history_free hroot hreached ⟨"a"⟩
  simp only [load_sharingFile] at hfree
  rcases hfree with ⟨e, -, ⟨⟩⟩ | ⟨id, f, id', f', hid, hf, ⟨⟩, hf', hview⟩
  obtain rfl : sharingFile = f' := Option.some.inj hf'
  exact ⟨id, f, hid, hf, hview⟩

end SchemaGen
