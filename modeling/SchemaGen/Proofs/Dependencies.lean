import SchemaGen.Proofs.BoundedLoading
import Mathlib.Data.List.Induction
import Mathlib.Logic.Relation

/-!
# What files depend on

The dependencies of a file are put together from those of the files that it imports: all of these,
each with the file itself behind them, and repetitions left out. A file that is imported is in the
graph already, so its own dependencies can be relied on.

Results:
1. `ordered_closure`, `nodup_closure`, `mem_closure_iff`: what leaving repetitions out keeps.
2. `Built.tracked`: the dependencies of a file are the files that it reaches through imports, each
   once and behind its own dependencies.
3. `reached_consistent`: all that holds of a catalog between two loads, and what a load changes.
-/

namespace SchemaGen

/-! ## Definitions -/

/-- What file `id` of the graph depends on. -/
def Graph.dependenciesOf (g : Graph) (id : FileId) : List FileId :=
  ((g.file? id).map (·.dependencies)).getD []

/-- Every file in `ids` stands behind all that it depends on. -/
def Graph.Ordered (g : Graph) (ids : List FileId) : Prop :=
  ∀ before id after, ids = before ++ id :: after → ∀ j ∈ g.dependenciesOf id, j ∈ before

/-- The dependencies of `f`, which is file `i` of the graph, are as they should be. -/
structure Tracked (fs : FileSystem) (root : Path) (g : Graph) (i : FileId) (f : SchemaFile) :
    Prop where
  nodup : f.dependencies.Nodup
  lt : ∀ j ∈ f.dependencies, j < i
  ordered : g.Ordered f.dependencies
  /-- The dependencies lie just where one or more import statements lead. -/
  reaches : ∀ m, Relation.TransGen (Imports fs root) f.location m ↔
    ∃ j ∈ f.dependencies, g.locations[j]? = some m

/-! ## 1. Closures -/

namespace Graph

variable {ids : List FileId} {j : FileId} {g : Graph}

theorem mem_addNew {id : FileId} : j ∈ addNew ids id ↔ j ∈ ids ∨ j = id := by
  unfold addNew
  split
  · next hmem =>
    have hid : id ∈ ids := by simpa using hmem
    constructor
    · exact .inl
    · rintro (hj | rfl)
      · exact hj
      · exact hid
  · rw [List.mem_append, List.mem_singleton]

theorem mem_foldl_addNew : j ∈ ids.foldl addNew [] ↔ j ∈ ids := by
  induction ids using List.reverseRecOn with
  | nil => rfl
  | append_singleton ids id ih =>
    rw [List.foldl_concat, mem_addNew, ih, List.mem_append, List.mem_singleton]

theorem nodup_foldl_addNew (ids : List FileId) : (ids.foldl addNew []).Nodup := by
  induction ids using List.reverseRecOn with
  | nil => exact List.nodup_nil
  | append_singleton ids id ih =>
    rw [List.foldl_concat, addNew]
    split
    · exact ih
    · next hnew =>
      rw [List.nodup_append]
      refine ⟨ih, List.nodup_singleton id, ?_⟩
      rintro j hj _ hid rfl
      obtain rfl := List.mem_singleton.1 hid
      exact hnew (by simpa using hj)

theorem ordered_snoc {id : FileId} :
    g.Ordered (ids ++ [id]) ↔ g.Ordered ids ∧ ∀ j ∈ g.dependenciesOf id, j ∈ ids := by
  constructor
  · intro h
    refine ⟨fun before id' after heq => h before id' (after ++ [id]) ?_, h ids id [] rfl⟩
    rw [heq, List.append_assoc, List.cons_append]
  · rintro ⟨hids, hid⟩ before id' after heq
    -- The place looked at is either the last one or one of those before it.
    rcases List.eq_nil_or_concat after with rfl | ⟨after', last, rfl⟩
    · obtain ⟨rfl, hlast⟩ := List.append_inj' heq rfl
      obtain rfl := (List.cons.inj hlast).1
      exact hid
    · have heq' : ids ++ [id] = (before ++ id' :: after') ++ [last] := by
        rw [heq, List.concat_eq_append, List.append_assoc, List.cons_append]
      exact hids before id' after' (List.append_inj' heq' rfl).1

theorem Ordered.append {others : List FileId} (h : g.Ordered ids) (h' : g.Ordered others) :
    g.Ordered (ids ++ others) := by
  induction others using List.reverseRecOn with
  | nil => rwa [List.append_nil]
  | append_singleton others id ih =>
    obtain ⟨hothers, hid⟩ := ordered_snoc.1 h'
    rw [← List.append_assoc]
    exact ordered_snoc.2 ⟨ih hothers, fun j hj => List.mem_append_right ids (hid j hj)⟩

theorem ordered_foldl_addNew (h : g.Ordered ids) : g.Ordered (ids.foldl addNew []) := by
  induction ids using List.reverseRecOn with
  | nil => exact h
  | append_singleton ids id ih =>
    obtain ⟨hids, hid⟩ := ordered_snoc.1 h
    rw [List.foldl_concat, addNew]
    split
    · exact ih hids
    · exact ordered_snoc.2 ⟨ih hids, fun j hj => mem_foldl_addNew.2 (hid j hj)⟩

theorem nodup_closure (g : Graph) (direct : List FileId) : (g.closure direct).Nodup :=
  nodup_foldl_addNew _

variable {direct : List FileId}

theorem mem_closure_iff :
    j ∈ g.closure direct ↔ ∃ id ∈ direct, j ∈ g.dependenciesOf id ∨ j = id := by
  rw [closure, mem_foldl_addNew, List.mem_flatMap]
  refine exists_congr fun id => and_congr_right fun _ => ?_
  rw [List.mem_append, List.mem_singleton, dependenciesOf]

theorem ordered_closure (h : ∀ id ∈ direct, g.Ordered (g.dependenciesOf id)) :
    g.Ordered (g.closure direct) := by
  refine ordered_foldl_addNew ?_
  induction direct with
  | nil =>
    intro before id after heq
    simp at heq
  | cons id rest ih =>
    rw [List.flatMap_cons]
    refine Ordered.append ?_ (ih fun j hj => h j (List.mem_cons_of_mem id hj))
    exact ordered_snoc.2 ⟨h id List.mem_cons_self, fun j hj => hj⟩

end Graph

/-! ## 2. The dependencies of a file -/

namespace DependenciesLemmas

variable {α β : Type} {R : α → β → Prop} {as : List α} {bs : List β} {i : FileId} {root : Path}

theorem exists_of_mem_left (h : List.Forall₂ R as bs) {a : α} (ha : a ∈ as) : ∃ b ∈ bs, R a b := by
  induction h with
  | nil => cases ha
  | cons hab _ ih =>
    rcases List.mem_cons.1 ha with rfl | ha
    · exact ⟨_, List.mem_cons_self, hab⟩
    · obtain ⟨b, hb, hR⟩ := ih ha
      exact ⟨b, List.mem_cons_of_mem _ hb, hR⟩

theorem exists_of_mem_right (h : List.Forall₂ R as bs) {b : β} (hb : b ∈ bs) : ∃ a ∈ as, R a b :=
  exists_of_mem_left h.flip hb

variable {g : Graph} {f : SchemaFile}

theorem dependenciesOf_eq (h : g.file? i = some f) : g.dependenciesOf i = f.dependencies := by
  rw [Graph.dependenciesOf, h]
  rfl

section Grow

variable {g g' : Graph} (hgrows : g.files <+: g'.files)

include hgrows

variable {j : FileId}

theorem file?_grow (hj : j < g.nextId) : g'.file? j = g.file? j := by
  have hf : g.file? j = some g.files[j] := List.getElem?_eq_getElem hj
  rw [hf, Graph.file?_mono hgrows hf]

theorem dependenciesOf_grow (hj : j < g.nextId) : g'.dependenciesOf j = g.dependenciesOf j := by
  rw [Graph.dependenciesOf, file?_grow hgrows hj, Graph.dependenciesOf]

theorem location?_grow (hj : j < g.nextId) : g'.locations[j]? = g.locations[j]? := by
  have hf : g.file? j = some g.files[j] := List.getElem?_eq_getElem hj
  rw [Graph.location?_of_file? hf, Graph.location?_of_file? (Graph.file?_mono hgrows hf)]

theorem ordered_grow {ids : List FileId} (hlt : ∀ j ∈ ids, j < g.nextId) (h : g.Ordered ids) :
    g'.Ordered ids := by
  intro before id after heq
  have hid : id ∈ ids := heq ▸ List.mem_append_right before List.mem_cons_self
  rw [dependenciesOf_grow hgrows (hlt id hid)]
  exact h before id after heq

end Grow

theorem tracked_grow {fs : FileSystem} {g' : Graph} (h : Tracked fs root g i f) (hi : i ≤ g.nextId)
    (hgrows : g.files <+: g'.files) :
    Tracked fs root g' i f where
  nodup := h.nodup
  lt := h.lt
  ordered := ordered_grow hgrows (fun j hj => Nat.lt_of_lt_of_le (h.lt j hj) hi) h.ordered
  reaches m := by
    rw [h.reaches]
    refine exists_congr fun j => and_congr_right fun hj => ?_
    rw [location?_grow hgrows (Nat.lt_of_lt_of_le (h.lt j hj) hi)]

section Next

variable {fs : FileSystem} {root : Path} {g : Graph} {l : Location} {d : Document}
  {imported : List FileId} (hg : Built fs root g) (h : Prepared fs root g l d imported)

include hg h

/-- The imports of a new file lead to the files that it is built from. -/
theorem imports_iff {m : Location} :
    Imports fs root l m ↔ ∃ id ∈ imported, g.locations[id]? = some m := by
  constructor
  · rintro ⟨d', hd', path, hpath, hm⟩
    obtain rfl := h.holds.unique hd'
    obtain ⟨id, hid, m', hm', hfound⟩ := exists_of_mem_left h.leads hpath
    obtain rfl := Except.ok.inj (hm.symm.trans hm')
    exact ⟨id, hid, (hg.find?_path_eq_some_iff (hg.plain_of_leads hm)).1 hfound⟩
  · rintro ⟨id, hid, hlocation⟩
    obtain ⟨path, hpath, m', hm', hfound⟩ := exists_of_mem_right h.leads hid
    rw [hg.find?_path_eq_some_iff (hg.plain_of_leads hm'), hlocation] at hfound
    obtain rfl := Option.some.inj hfound
    exact ⟨d, h.holds, path, hpath, hm'⟩

theorem exists_file_of_imported {id : FileId} (hid : id ∈ imported) : ∃ f, g.file? id = some f := by
  obtain ⟨path, -, m, hm, hfound⟩ := exists_of_mem_right h.leads hid
  obtain ⟨f, hf, -⟩ := hg.find?_eq_some_iff.1 hfound
  exact ⟨f, hf⟩

variable (htracked : ∀ i f, g.file? i = some f → Tracked fs root g i f)

include htracked

theorem closure_lt {j : FileId} (hj : j ∈ g.closure imported) : j < g.nextId := by
  obtain ⟨id, hid, hor⟩ := Graph.mem_closure_iff.1 hj
  obtain ⟨f, hf⟩ := exists_file_of_imported hg h hid
  have hid' : id < g.nextId := Graph.lt_of_location? (Graph.location?_of_file? hf)
  rcases hor with hdep | rfl
  · rw [dependenciesOf_eq hf] at hdep
    exact Nat.lt_trans ((htracked id f hf).lt j hdep) hid'
  · exact hid'

theorem closure_ordered : g.Ordered (g.closure imported) := by
  refine Graph.ordered_closure fun id hid => ?_
  obtain ⟨f, hf⟩ := exists_file_of_imported hg h hid
  rw [dependenciesOf_eq hf]
  exact (htracked id f hf).ordered

/-- One import statement leads to a file of the graph, and from there its dependencies tell how far
further ones lead. -/
theorem closure_reaches (m : Location) :
    Relation.TransGen (Imports fs root) l m ↔
      ∃ j ∈ g.closure imported, g.locations[j]? = some m := by
  rw [Relation.TransGen.head'_iff]
  constructor
  · rintro ⟨x, himports, hsteps⟩
    obtain ⟨id, hid, hx⟩ := (imports_iff hg h).1 himports
    obtain ⟨f, hf, rfl⟩ := Graph.exists_file_of_location? hx
    rcases Relation.reflTransGen_iff_eq_or_transGen.1 hsteps with rfl | hsteps
    · exact ⟨id, Graph.mem_closure_iff.2 ⟨id, hid, .inr rfl⟩, hx⟩
    · obtain ⟨j, hj, hm⟩ := ((htracked id f hf).reaches m).1 hsteps
      rw [← dependenciesOf_eq hf] at hj
      exact ⟨j, Graph.mem_closure_iff.2 ⟨id, hid, .inl hj⟩, hm⟩
  · rintro ⟨j, hj, hm⟩
    obtain ⟨id, hid, hor⟩ := Graph.mem_closure_iff.1 hj
    obtain ⟨f, hf⟩ := exists_file_of_imported hg h hid
    refine ⟨f.location, (imports_iff hg h).2 ⟨id, hid, Graph.location?_of_file? hf⟩, ?_⟩
    rcases hor with hdep | rfl
    · rw [dependenciesOf_eq hf] at hdep
      exact (((htracked id f hf).reaches m).2 ⟨j, hdep, hm⟩).to_reflTransGen
    · rw [Graph.location?_of_file? hf] at hm
      obtain rfl := Option.some.inj hm
      exact .refl

end Next

end DependenciesLemmas

open DependenciesLemmas

variable {fs : FileSystem} {root : Path} {g : Graph}

theorem Built.tracked (h : Built fs root g) {i : FileId} {f : SchemaFile}
    (hf : g.file? i = some f) : Tracked fs root g i f := by
  induction h generalizing i f with
  | empty => cases hf
  | insert built next ih =>
    rcases next.file?_insert_iff.1 hf with hold | ⟨rfl, rfl⟩
    · have hi := Graph.lt_of_location? (Graph.location?_of_file? hold)
      exact tracked_grow (ih hold) (Nat.le_of_lt hi) next.prefix_insert
    -- The new file depends on files of the smaller graph only, so it is tracked there first.
    · have htracked := fun i f hf => @ih i f hf
      have heq := next.dependencies_eq
      refine tracked_grow ⟨heq ▸ Graph.nodup_closure _ _, fun j hj => ?_, ?_, fun m => ?_⟩
        (Nat.le_refl _) next.prefix_insert
      · exact closure_lt built next.toPrepared htracked (heq ▸ hj)
      · exact heq ▸ closure_ordered built next.toPrepared htracked
      · rw [next.location_eq, heq]
        exact closure_reaches built next.toPrepared htracked m

/-- The closure of the imports of a new file lies just where they lead. -/
theorem Prepared.reaches {l : Location} {d : Document} {imported : List FileId}
    (h : Prepared fs root g l d imported) (hg : Built fs root g) (m : Location) :
    Relation.TransGen (Imports fs root) l m ↔
      ∃ j ∈ g.closure imported, g.locations[j]? = some m :=
  closure_reaches hg h (fun _ _ => hg.tracked) m

/-! ## 3. Catalogs between two loads -/

/-- What holds of every catalog between two loads. -/
structure Consistent (fs : FileSystem) (c : Catalog) : Prop where
  idle : c.loading = []
  numbered : ∀ i f, c.graph.file? i = some f → f.id = i
  located : ∀ i f, c.graph.file? i = some f → f.path = f.location.path
  distinct : c.graph.files.Pairwise fun f f' => ¬ f.path.same f'.path
  loaded : ∀ p i, c.loaded? p = some i ↔ ∃ f, c.graph.file? i = some f ∧ f.path.same p
  found : ∀ p, c.graph.find? p = c.loaded? p
  tracked : ∀ i f, c.graph.file? i = some f → Tracked fs c.root c.graph i f

theorem Settled.consistent {c : Catalog} (h : Settled fs c) :
    Consistent fs c where
  idle := h.idle
  numbered _ _ hf := h.built.id_eq hf
  located _ _ hf := (h.built.plain hf).2
  distinct := by
    rw [List.pairwise_iff_getElem]
    intro i j hi hj hlt hsame
    have heq := h.built.eq_of_same (List.getElem?_eq_getElem hi) (List.getElem?_eq_getElem hj) hsame
    exact Nat.ne_of_lt hlt heq
  loaded p i := by rw [h.loaded, h.built.find?_eq_some_iff]
  found p := (h.loaded p).symm
  tracked _ _ hf := h.built.tracked hf

/-- In every catalog that loads lead to, whether they succeeded or failed, files are numbered by
their places, looked up by their paths, and depend on just what they reach through imports. A
further load, even one that fails, keeps all files and only adds others, and loading a file again
gives its number. -/
theorem reached_consistent {fs : FileSystem} {dir : Path} {start c : Catalog}
    (hstart : Catalog.ofRoot fs dir = .ok start) (hc : Reached fs start c) :
    Consistent fs c ∧
      ∀ p, c.graph.files <+: ((Catalog.load fs p).run c).2.graph.files ∧
        ∀ l i, fs.canonicalize (c.root.join p) = .ok l → c.loaded? l.path = some i →
          (Catalog.load fs p).run c = (.ok i, c) := by
  obtain ⟨hsettled, -⟩ := hc.settled (.of_ofRoot hstart)
  refine ⟨hsettled.consistent, fun p => ⟨(hsettled.load p).2.2.1, fun l i hl hi => ?_⟩⟩
  rw [Catalog.load_of_ok hl, Catalog.loadAt_known hi]

/-! ### Loading after a failed load -/

/-- Three schema files: `a` imports `b` twice, and `c` imports `b` and a file that is missing. -/
def sharedImport : FileSystem :=
  ⟨.directory .full [("s", .directory .full [
    ("a", .text "import \"b\"; import \"./b\";"),
    ("b", .text ""),
    ("c", .text "import \"b\"; import \"x\";")])], []⟩

/-- The file `b` once it is loaded. -/
def sharedFile : SchemaFile :=
  SchemaFile.empty 0 ⟨"/s"⟩ ⟨"b"⟩ ⟨"/s/b"⟩

/-- The file `a` once it is loaded behind `b`. -/
def sharingFile : SchemaFile :=
  { SchemaFile.empty 1 ⟨"/s"⟩ ⟨"a"⟩ ⟨"/s/a"⟩ with
    imports := [⟨.importing, "b", "b"⟩, ⟨.importing, "./b", "./b"⟩]
    dependencies := [0] }

/-- The catalog of these files with nothing loaded, while `loading` are being loaded. -/
def nothingLoaded (loading : List Location) : Catalog :=
  ⟨⟨"/s"⟩, .empty, [], loading⟩

/-- The catalog with `b` loaded. -/
def sharedLoaded (loading : List Location) : Catalog :=
  ⟨⟨"/s"⟩, ⟨[sharedFile]⟩, [(⟨"/s/b"⟩, 0)], loading⟩

/-- A failed load leaves the files behind that it added before. -/
theorem load_missingImport :
    (Catalog.load sharedImport ⟨"c"⟩).run (nothingLoaded []) =
      (.error (.unresolvedImport "c" "x"), sharedLoaded []) :=
  Catalog.load_of_within (show Catalog.loadWithin _ 2 _ _ = _ by decide +kernel)

/-- The two imports of `a` lead to one file, which is loaded already. -/
theorem load_sharingFile :
    (Catalog.load sharedImport ⟨"a"⟩).run (sharedLoaded []) =
      (.ok 1, (sharedLoaded []).add ["s", "a"] sharingFile) :=
  Catalog.load_of_within (show Catalog.loadWithin _ 2 _ _ = _ by decide +kernel)

theorem reached_consistent_after_failure :
    Catalog.ofRoot sharedImport ⟨"/s"⟩ = .ok (nothingLoaded []) ∧
    let c := (sharedLoaded []).add ["s", "a"] sharingFile
    Reached sharedImport (nothingLoaded []) c ∧ Consistent sharedImport c ∧
      ∀ p, c.graph.files <+: ((Catalog.load sharedImport p).run c).2.graph.files ∧
        ∀ l i, sharedImport.canonicalize (c.root.join p) = .ok l → c.loaded? l.path = some i →
          (Catalog.load sharedImport p).run c = (.ok i, c) := by
  have hroot : Catalog.ofRoot sharedImport ⟨"/s"⟩ = .ok (nothingLoaded []) := by decide +kernel
  have hreached : Reached sharedImport (nothingLoaded []) _ := .load ⟨"a"⟩ (.load ⟨"c"⟩ .start)
  rw [load_missingImport, load_sharingFile] at hreached
  exact ⟨hroot, hreached, reached_consistent hroot hreached⟩

end SchemaGen
