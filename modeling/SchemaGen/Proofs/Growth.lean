import SchemaGen.Proofs.Dependencies

/-!
# Graphs over a history of file systems

Between two loads files may come, go and change, and a catalog keeps what it has read. So each file
of its graph was read from one of the file systems that loads have seen, and the file was built
when the files before it, and no others, were in the graph. `Grown` says this. It says nothing of
where import statements lead now, which `Built` does for a file system that stays.

Results:
1. `Loads.grown`: a call of the loader lets the graph grow.
2. `Catalog.grown_of_ofRoot`: the graph of every catalog that loads lead to is grown.
3. `Grown.origin`: what each file was built from. It depends on files before it only.
-/

namespace SchemaGen

/-! ## Definitions -/

/-- The catalogs that any number of loads, of whatever results, lead to from `start`. Each load has
a file system of its own; these are `seen`, the last one in front. -/
inductive ReachedOver (start : Catalog) : List FileSystem → Catalog → Prop
  | start : ReachedOver start [] start
  | load {seen : List FileSystem} {c : Catalog} (fs : FileSystem) (p : Path)
      (before : ReachedOver start seen c) :
      ReachedOver start (fs :: seen) ((Catalog.load fs p).run c).2

/-- The graphs that loading builds below `root` from files of the file systems in `seen`. -/
inductive Grown (seen : List FileSystem) (root : Path) : Graph → Prop
  | empty : Grown seen root .empty
  | insert {g : Graph} {fs : FileSystem} {l : Location} {d : Document} {imported : List FileId}
      {f : SchemaFile} (grown : Grown seen root g) (hseen : fs ∈ seen) (hholds : Holds fs l d)
      (himported : ∀ id ∈ imported, id < g.nextId)
      (hbuild : Catalog.build root g l d imported = .ok f) : Grown seen root (g.insert f)

/-- The graph of a catalog is grown, and the catalog remembers only numbers that the graph has. -/
structure Catalog.IsGrown (seen : List FileSystem) (c : Catalog) : Prop where
  graph : Grown seen c.root c.graph
  loaded : ∀ entry ∈ c.loaded, entry.2 < c.graph.nextId

/-! ## 1. Calls of the loader -/

theorem Graph.nextId_insert (g : Graph) (f : SchemaFile) : (g.insert f).nextId = g.nextId + 1 := by
  simp [insert, nextId]

variable {seen : List FileSystem} {g : Graph} {c : Catalog} {f : SchemaFile}

theorem Grown.mono {seen' : List FileSystem} {root : Path} (h : Grown seen root g)
    (hsub : seen ⊆ seen') : Grown seen' root g := by
  induction h with
  | empty => exact .empty
  | insert _ hseen hholds himported hbuild ih =>
    exact .insert ih (hsub hseen) hholds himported hbuild

namespace Catalog.IsGrown

variable {seen : List FileSystem} {c : Catalog}

theorem lt_of_loaded? (hc : c.IsGrown seen) {p : Path} {id : FileId} (h : c.loaded? p = some id) :
    id < c.graph.nextId := by
  obtain ⟨entry, hentry, rfl⟩ := Option.map_eq_some_iff.1 h
  exact hc.loaded entry (List.mem_of_find?_eq_some hentry)

theorem add {fs : FileSystem} {l : Location} {d : Document} {imported : List FileId}
    {f : SchemaFile} (hc : c.IsGrown seen) (hseen : fs ∈ seen) (hholds : Holds fs l d)
    (himported : ∀ id ∈ imported, id < c.graph.nextId)
    (hbuild : Catalog.build c.root c.graph l d imported = .ok f) : (c.add l f).IsGrown seen where
  graph := hc.graph.insert hseen hholds himported hbuild
  loaded entry hentry := by
    rw [show (c.add l f).graph.nextId = c.graph.nextId + 1 from c.graph.nextId_insert f]
    cases hentry with
    | head => exact Nat.lt_succ_self _
    | tail _ hold => exact Nat.lt_succ_of_lt (hc.loaded entry hold)

end Catalog.IsGrown

/-- What a call of the loader does to a grown catalog, and that its result gives numbers of the
graph. -/
structure Grows (seen : List FileSystem) (c : Catalog) (result : Except LoadError (List FileId))
    (c' : Catalog) : Prop where
  grown : c'.IsGrown seen
  root : c'.root = c.root
  le : c.graph.nextId ≤ c'.graph.nextId
  result : ∀ ids, result = .ok ids → ∀ id ∈ ids, id < c'.graph.nextId

theorem Grows.of_error (hc : c.IsGrown seen) (e : LoadError) : Grows seen c (.error e) c :=
  ⟨hc, rfl, Nat.le_refl _, nofun⟩

/-- The file on top of those that are being loaded does not matter here. -/
theorem Grows.leave {after : Catalog} {l : Location} {result : Except LoadError (List FileId)}
    (h : Grows seen (c.enter l) result after) (e : LoadError) :
    Grows seen c (.error e) after.leave :=
  ⟨⟨h.grown.graph, h.grown.loaded⟩, h.root, h.le, nofun⟩

theorem Loads.grown {fs : FileSystem} {c' : Catalog} {r : Request}
    {result : Except LoadError (List FileId)} (h : Loads fs c r result c') (hseen : fs ∈ seen)
    (hc : c.IsGrown seen) : Grows seen c result c' := by
  induction h with
  | @known c l id hloaded =>
    refine ⟨hc, rfl, Nat.le_refl _, ?_⟩
    intro ids hids id' hid'
    cases hids
    obtain rfl := List.mem_singleton.1 hid'
    exact hc.lt_of_loaded? hloaded
  | unread => exact .of_error hc _
  | stuck _ _ _ ih => exact (ih ⟨hc.graph, hc.loaded⟩).leave _
  | refused _ _ _ _ ih => exact (ih ⟨hc.graph, hc.loaded⟩).leave _
  | @added c after l d imported f _ hread _ hbuild ih =>
    have himports := ih ⟨hc.graph, hc.loaded⟩
    have hafter : after.leave.IsGrown seen := ⟨himports.grown.graph, himports.grown.loaded⟩
    have hnext : (after.leave.add l f).graph.nextId = after.graph.nextId + 1 :=
      after.graph.nextId_insert f
    refine ⟨hafter.add hseen (Catalog.read_eq_ok_iff.1 hread) (himports.result imported rfl) hbuild,
      himports.root, ?_, ?_⟩
    · rw [hnext]
      exact Nat.le_succ_of_le himports.le
    · intro ids hids id hid
      cases hids
      obtain rfl := List.mem_singleton.1 hid
      rw [hnext]
      exact Nat.lt_succ_self _
  | done =>
    refine ⟨hc, rfl, Nat.le_refl _, ?_⟩
    intro ids hids id hid
    cases hids
    cases hid
  | unresolved => exact .of_error hc _
  | cycle => exact .of_error hc _
  | failed _ _ _ ih =>
    obtain ⟨hgrown, hroot, hle, -⟩ := ih hc
    exact ⟨hgrown, hroot, hle, nofun⟩
  | nextFails _ _ _ _ ih ih' =>
    have hfirst := ih hc
    have hrest := ih' hfirst.grown
    exact ⟨hrest.grown, hrest.root.trans hfirst.root, Nat.le_trans hfirst.le hrest.le, nofun⟩
  | @next c after final file path paths l id ids _ _ _ _ ih ih' =>
    have hfirst := ih hc
    have hrest := ih' hfirst.grown
    refine ⟨hrest.grown, hrest.root.trans hfirst.root, Nat.le_trans hfirst.le hrest.le, ?_⟩
    intro ids' hids id' hid
    cases hids
    cases hid with
    | head => exact Nat.lt_of_lt_of_le (hfirst.result [id] rfl id List.mem_cons_self) hrest.le
    | tail _ hid => exact hrest.result ids rfl id' hid

/-! ## 2. Catalogs that loads lead to -/

theorem Catalog.IsGrown.load (hc : c.IsGrown seen) (fs : FileSystem) (p : Path) :
    ((Catalog.load fs p).run c).2.IsGrown (fs :: seen) ∧
      ((Catalog.load fs p).run c).2.root = c.root := by
  have hmono : c.IsGrown (fs :: seen) :=
    ⟨hc.graph.mono (List.subset_cons_self fs seen), hc.loaded⟩
  cases hl : fs.canonicalize (c.root.join p) with
  | error cause =>
    rw [Catalog.load_of_error hl]
    exact ⟨hmono, rfl⟩
  | ok l =>
    rw [Catalog.load_of_ok hl]
    have hgrows := ((Catalog.loads_both fs).1 c l).grown List.mem_cons_self hmono
    exact ⟨hgrows.grown, hgrows.root⟩

/-- Whatever loads were made of which file systems, the graph is grown. -/
theorem Catalog.grown_of_ofRoot {fs : FileSystem} {dir : Path} {start : Catalog}
    (hstart : Catalog.ofRoot fs dir = .ok start) (hreached : ReachedOver start seen c) :
    c.IsGrown seen ∧ c.root = start.root := by
  induction hreached with
  | start =>
    unfold Catalog.ofRoot at hstart
    split at hstart
    · cases hstart
      exact ⟨⟨.empty, nofun⟩, rfl⟩
    · cases hstart
  | load fs' p _ ih =>
    obtain ⟨hc, hroot⟩ := ih
    obtain ⟨hgrown, hroot'⟩ := hc.load fs' p
    exact ⟨hgrown, hroot'.trans hroot⟩

/-! ## 3. Where files come from -/

/-- What the file `f` was built from: the document `d` at `l`, when `g` was the graph. -/
structure BuiltFrom (seen : List FileSystem) (root : Path) (g : Graph) (l : Location)
    (d : Document) (f : SchemaFile) : Prop where
  holds : ∃ fs ∈ seen, Holds fs l d
  build : ∃ imported, Catalog.build root g l d imported = .ok f
  lt : ∀ id ∈ f.dependencies, id < g.nextId

theorem BuiltFrom.id_eq {root : Path} {l : Location} {d : Document}
    (h : BuiltFrom seen root g l d f) : f.id = g.nextId := by
  obtain ⟨imported, hbuild⟩ := h.build
  exact congrArg (·.1) (Catalog.build_place hbuild)

/-- Each file was built when just the files before it were in the graph. -/
theorem Grown.origin {root : Path} (h : Grown seen root g) {i : FileId} (hf : g.file? i = some f) :
    ∃ g' l d, BuiltFrom seen root g' l d f ∧ g'.files <+: g.files ∧ g'.nextId = i := by
  induction h generalizing i f with
  | empty => cases hf
  | @insert g fs l d imported f' _ hseen hholds himported hbuild ih =>
    have hplace := Catalog.build_place hbuild
    have hid : f'.id = g.nextId := congrArg (·.1) hplace
    have hgrows : g.files <+: (g.insert f').files := List.prefix_append _ _
    rcases (Graph.file?_insert_iff hid).1 hf with hold | ⟨rfl, rfl⟩
    · obtain ⟨g', l', d', hfrom, hbefore, hnext⟩ := ih hold
      exact ⟨g', l', d', hfrom, hbefore.trans hgrows, hnext⟩
    · refine ⟨g, l, d, ⟨⟨fs, hseen, hholds⟩, ⟨imported, hbuild⟩, ?_⟩, hgrows, rfl⟩
      intro j hj
      have hclosure : f.dependencies = g.closure imported := congrArg (·.2.2.2.2) hplace
      rw [hclosure] at hj
      obtain ⟨id, hid, hdep | rfl⟩ := Graph.mem_closure_iff.1 hj
      · -- The dependencies of an imported file come before that file.
        have hlt := himported id hid
        obtain ⟨f₁, hf₁⟩ : ∃ f₁, g.file? id = some f₁ := ⟨_, List.getElem?_eq_getElem hlt⟩
        obtain ⟨g₁, l₁, d₁, hfrom, -, hnext⟩ := ih hf₁
        rw [Graph.dependenciesOf, hf₁] at hdep
        exact Nat.lt_trans (hnext ▸ hfrom.lt j hdep) hlt
      · exact himported j hid

theorem Grown.id_eq {root : Path} (h : Grown seen root g) {i : FileId} (hf : g.file? i = some f) :
    f.id = i := by
  obtain ⟨g', l, d, hfrom, -, hnext⟩ := h.origin hf
  exact hfrom.id_eq.trans hnext

end SchemaGen
