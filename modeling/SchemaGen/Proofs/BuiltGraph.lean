import SchemaGen.Catalog
import SchemaGen.Proofs.Filling
import SchemaGen.Proofs.Location
import Mathlib.Data.List.Forall2
import Mathlib.Data.List.Nodup

/-!
# Graphs that loading builds

A graph grows by one file at a time: a file that is not in it yet and whose imports are all in it.
`Extends` says that a file is the next one, `Built` that a graph grew in this way. What holds of
such graphs does not depend on the order in which files are visited, so it is shown here once.

Results:
1. `Built.id_eq`, `Built.plain`, `Built.locations_nodup`: files are numbered by their places and no
   two lie at the same location.
2. `Built.find?_eq_some_iff`: looking a path up finds just the file with this path.
3. `Built.origin`: each file was once the next one for the files before it.
-/

namespace SchemaGen

/-! ## Definitions -/

/-- The location of a file, as its absolute path spells it. -/
def SchemaFile.location (f : SchemaFile) : Location :=
  f.path.pieces

/-- The locations of the files of a graph, by number. -/
def Graph.locations (g : Graph) : List Location :=
  g.files.map (·.location)

/-- The file at `l` can be read and holds the document `d`. -/
def Holds (fs : FileSystem) (l : Location) (d : Document) : Prop :=
  ∃ contents text, fs.readAt l = .ok contents ∧ Text.ofBytes contents = .ok text ∧
    Document.ofText text = .ok d

/-- The file at `l` has an import statement that leads to `m`. -/
def Imports (fs : FileSystem) (root : Path) (l m : Location) : Prop :=
  ∃ d, Holds fs l d ∧ ∃ imported ∈ d.imports, fs.canonicalize (root / imported) = .ok m

/-- The import `imported` leads to file `id` of the graph. -/
def LeadsTo (fs : FileSystem) (root : Path) (g : Graph) (imported : String) (id : FileId) : Prop :=
  ∃ m, fs.canonicalize (root / imported) = .ok m ∧ g.find? m.path = some id

/-- All imports of the file at `l`, which holds `d`, are in the graph, namely as `imported`, and the
file itself is not. -/
structure Prepared (fs : FileSystem) (root : Path) (g : Graph) (l : Location) (d : Document)
    (imported : List FileId) : Prop where
  plain : l.IsPlain
  new : g.find? l.path = none
  holds : Holds fs l d
  leads : List.Forall₂ (LeadsTo fs root g) d.imports imported

/-- The file `f` at `l` is one that loading adds to `g`. -/
structure Extends (fs : FileSystem) (root : Path) (g : Graph) (l : Location) (d : Document)
    (imported : List FileId) (f : SchemaFile) : Prop extends
    Prepared fs root g l d imported where
  built : Catalog.build root g l d imported = .ok f

/-- The graphs that loading builds below the schema root `root`. -/
inductive Built (fs : FileSystem) (root : Path) : Graph → Prop
  | empty (absolute : root.isAbsolute = true) : Built fs root .empty
  | insert {g : Graph} {l : Location} {d : Document} {imported : List FileId} {f : SchemaFile}
      (built : Built fs root g) (next : Extends fs root g l d imported f) :
      Built fs root (g.insert f)

/-! ## Reading -/

variable {l : Location} {d : Document} {fs : FileSystem} {p : Path} {g : Graph}
  {imported : List FileId} {f : SchemaFile}

theorem Catalog.read_eq_ok_iff {root : Path} : Catalog.read fs root l = .ok d ↔ Holds fs l d := by
  unfold Catalog.read Holds
  split
  · next cause hcause => simp [hcause]
  · next contents hcontents =>
    unfold Catalog.document
    split
    · next valid hvalid => simp [hcontents, hvalid]
    · next text htext => simp [hcontents, htext, FillingLemmas.mapError_eq_ok_iff]

theorem Holds.unique {d' : Document} (h : Holds fs l d) (h' : Holds fs l d') : d = d' := by
  obtain ⟨contents, text, hcontents, htext, hd⟩ := h
  obtain ⟨contents', text', hcontents', htext', hd'⟩ := h'
  obtain rfl := Except.ok.inj (hcontents.symm.trans hcontents')
  obtain rfl := Except.ok.inj (htext.symm.trans htext')
  exact Except.ok.inj (hd.symm.trans hd')

theorem Path.isAbsolute_join (h : p.isAbsolute = true) (q : Path) :
    (p.join q).isAbsolute = true := by
  unfold join
  split
  · assumption
  · split <;> simp_all [isAbsolute, List.head?_append]

theorem Path.same_comm (p q : Path) : p.same q = q.same p := by
  unfold same
  exact decide_eq_decide.2 eq_comm

theorem Path.same_congr {q : Path} (h : p.same q = true) (r : Path) : r.same p = r.same q := by
  unfold same at h ⊢
  rw [of_decide_eq_true h]

/-! ## Growing graphs -/

namespace Graph

variable {g : Graph} {i : FileId} {f : SchemaFile}

theorem location?_of_file? (h : g.file? i = some f) : g.locations[i]? = some f.location := by
  rw [locations, List.getElem?_map, show g.files[i]? = some f from h]
  rfl

variable {m : Location} {p : Path} {g' : Graph}

theorem exists_file_of_location? (h : g.locations[i]? = some m) :
    ∃ f, g.file? i = some f ∧ f.location = m := by
  rw [locations, List.getElem?_map, Option.map_eq_some_iff] at h
  exact h

theorem lt_of_location? (h : g.locations[i]? = some m) : i < g.nextId := by
  obtain ⟨hlt, -⟩ := List.getElem?_eq_some_iff.1 h
  rwa [locations, List.length_map] at hlt

theorem find?_congr (g : Graph) {q : Path} (h : p.same q = true) : g.find? p = g.find? q := by
  have hsame : (fun f : SchemaFile => f.path.same p) = fun f => f.path.same q :=
    funext fun f => Path.same_congr h f.path
  rw [find?, find?, hsame]

theorem file?_mono (h : g.files <+: g'.files) (hf : g.file? i = some f) : g'.file? i = some f := by
  obtain ⟨more, hmore⟩ := h
  obtain ⟨hlt, -⟩ := List.getElem?_eq_some_iff.1 hf
  rw [file?, ← hmore, List.getElem?_append_left hlt]
  exact hf

theorem find?_mono (h : g.files <+: g'.files) (hi : g.find? p = some i) : g'.find? p = some i := by
  obtain ⟨more, hmore⟩ := h
  obtain ⟨f, hf, rfl⟩ := Option.map_eq_some_iff.1 hi
  rw [find?, ← hmore, List.find?_append, hf]
  rfl

theorem files_insert (hid : f.id = g.nextId) : (g.insert f).files = g.files ++ [f] := by
  rw [insert, ← hid]

/-- The files of the larger graph are those of the smaller one and the new one behind them. -/
theorem file?_insert_iff {f' : SchemaFile} (hid : f.id = g.nextId) :
    (g.insert f).file? i = some f' ↔ g.file? i = some f' ∨ i = g.nextId ∧ f' = f := by
  rw [file?, files_insert hid, file?, nextId]
  rcases Nat.lt_trichotomy i g.files.length with hlt | rfl | hgt
  · simp [List.getElem?_append_left hlt, Nat.ne_of_lt hlt]
  · simp [eq_comm]
  · simp [List.getElem?_append_right (Nat.le_of_lt hgt), List.getElem?_eq_none (Nat.le_of_lt hgt),
      Nat.ne_of_gt hgt, Nat.sub_ne_zero_of_lt hgt]

end Graph

theorem Catalog.build_place {root : Path} (h : Catalog.build root g l d imported = .ok f) :
    f.place = (g.nextId, root, Catalog.relative root l.path, l.path, g.closure imported) :=
  (SchemaFile.fill_effect h).1

theorem Catalog.build_path {root : Path} (h : Catalog.build root g l d imported = .ok f) :
    f.path = l.path :=
  congrArg (·.2.2.2.1) (Catalog.build_place h)

theorem Catalog.build_indexed {root : Path} (h : Catalog.build root g l d imported = .ok f) :
    f.IsIndexed :=
  SchemaFile.IsIndexed.fill (SchemaFile.IsNew.isIndexed ⟨rfl, rfl, rfl⟩) h

namespace Extends

variable {fs : FileSystem} {root : Path} {g : Graph} {l : Location} {d : Document}
  {imported : List FileId} {f : SchemaFile} (h : Extends fs root g l d imported f)

include h

theorem place :
    f.place = (g.nextId, root, Catalog.relative root l.path, l.path, g.closure imported) :=
  Catalog.build_place h.built

theorem id_eq : f.id = g.nextId :=
  congrArg (·.1) h.place

theorem path_eq : f.path = l.path :=
  Catalog.build_path h.built

theorem dependencies_eq : f.dependencies = g.closure imported :=
  congrArg (·.2.2.2.2) h.place

theorem location_eq : f.location = l := by
  rw [SchemaFile.location, h.path_eq, Location.pieces_path h.plain]

theorem files_insert : (g.insert f).files = g.files ++ [f] :=
  Graph.files_insert h.id_eq

theorem prefix_insert : g.files <+: (g.insert f).files :=
  ⟨[f], h.files_insert.symm⟩

theorem locations_insert : (g.insert f).locations = g.locations ++ [l] := by
  rw [Graph.locations, h.files_insert, List.map_append, List.map_singleton, h.location_eq,
    Graph.locations]

theorem file?_insert_iff {i : FileId} {f' : SchemaFile} :
    (g.insert f).file? i = some f' ↔ g.file? i = some f' ∨ i = g.nextId ∧ f' = f :=
  Graph.file?_insert_iff h.id_eq

end Extends

/-! ## 1. Numbers and locations -/

namespace Built

variable {fs : FileSystem} {root : Path} {g : Graph} (h : Built fs root g)

include h

theorem absolute : root.isAbsolute = true := by
  induction h with
  | empty absolute => exact absolute
  | insert _ _ ih => exact ih

variable {i : FileId} {f : SchemaFile} {l : Location}

/-- Each file was the next one for the files before it. -/
theorem origin (hf : g.file? i = some f) :
    ∃ g' l d imported, Built fs root g' ∧ Extends fs root g' l d imported f ∧
      g'.files <+: g.files ∧ g'.nextId = i := by
  induction h with
  | empty => cases hf
  | @insert g l d imported f' built next ih =>
    rcases next.file?_insert_iff.1 hf with hold | ⟨rfl, rfl⟩
    · obtain ⟨g', l', d', imported', hbuilt, hnext, hgrows, hid⟩ := ih hold
      exact ⟨g', l', d', imported', hbuilt, hnext, hgrows.trans next.prefix_insert, hid⟩
    · exact ⟨g, l, d, imported, built, next, next.prefix_insert, rfl⟩

theorem id_eq (hf : g.file? i = some f) : f.id = i := by
  obtain ⟨g', l, d, imported, -, hnext, -, hid⟩ := h.origin hf
  exact hnext.id_eq.trans hid

theorem plain (hf : g.file? i = some f) : f.location.IsPlain ∧ f.path = f.location.path := by
  obtain ⟨g', l, d, imported, -, hnext, -, -⟩ := h.origin hf
  rw [hnext.location_eq]
  exact ⟨hnext.plain, hnext.path_eq⟩

variable {m : Location} {j : FileId}

theorem plain_of_leads {imported : String}
    (hm : fs.canonicalize (root / imported) = .ok m) : m.IsPlain :=
  FileSystem.plain_of_canonicalize (Path.isAbsolute_join h.absolute _) hm

theorem same_iff (hf : g.file? i = some f) (hl : l.IsPlain) :
    f.path.same l.path = true ↔ f.location = l := by
  obtain ⟨hplain, hpath⟩ := h.plain hf
  rw [hpath, Location.same_path_iff hplain hl]

theorem find?_eq_none_iff (hl : l.IsPlain) : g.find? l.path = none ↔ l ∉ g.locations := by
  rw [Graph.find?, Option.map_eq_none_iff, List.find?_eq_none, Graph.locations, List.mem_map,
    not_exists]
  refine forall_congr' fun f => ?_
  rw [not_and]
  refine imp_congr_right fun hmem => not_congr ?_
  obtain ⟨i, hi⟩ := List.getElem?_of_mem hmem
  exact h.same_iff hi hl

theorem locations_nodup : g.locations.Nodup := by
  induction h with
  | empty => exact List.nodup_nil
  | @insert g l d imported f built next ih =>
    have hnew : l ∉ g.locations := (built.find?_eq_none_iff next.plain).1 next.new
    rw [next.locations_insert, List.nodup_append]
    refine ⟨ih, List.nodup_singleton l, ?_⟩
    rintro m hm m' hm' rfl
    obtain rfl := List.mem_singleton.1 hm'
    exact hnew hm

/-! ## 2. Looking paths up -/

/-- Two files at the same location are one. -/
theorem location?_inj (hi : g.locations[i]? = some m) (hj : g.locations[j]? = some m) : i = j := by
  obtain ⟨hlt, -⟩ := List.getElem?_eq_some_iff.1 hi
  exact (List.getElem?_inj hlt h.locations_nodup).1 (hi.trans hj.symm)

/-- Two files with the same path are one. -/
theorem eq_of_same {f' : SchemaFile} (hf : g.file? i = some f)
    (hf' : g.file? j = some f') (hsame : f.path.same f'.path = true) : i = j := by
  obtain ⟨hplain, hpath⟩ := h.plain hf'
  rw [hpath, h.same_iff hf hplain] at hsame
  exact h.location?_inj (hsame ▸ Graph.location?_of_file? hf) (Graph.location?_of_file? hf')

theorem find?_eq_some_iff {p : Path} :
    g.find? p = some i ↔ ∃ f, g.file? i = some f ∧ f.path.same p = true := by
  rw [Graph.find?, Option.map_eq_some_iff]
  constructor
  · rintro ⟨f, hfound, rfl⟩
    obtain ⟨j, hj⟩ := List.getElem?_of_mem (List.mem_of_find?_eq_some hfound)
    have hsame : f.path.same p = true := by simpa using List.find?_some hfound
    rw [h.id_eq hj]
    exact ⟨f, hj, hsame⟩
  · rintro ⟨f, hf, hsame⟩
    have hsome : (g.files.find? (·.path.same p)).isSome :=
      List.find?_isSome.2 ⟨f, List.mem_of_getElem? hf, hsame⟩
    obtain ⟨f', hfound⟩ := Option.isSome_iff_exists.1 hsome
    obtain ⟨j, hj⟩ := List.getElem?_of_mem (List.mem_of_find?_eq_some hfound)
    have hsame' : f'.path.same p = true := by simpa using List.find?_some hfound
    refine ⟨f', hfound, (h.id_eq hj).trans (h.eq_of_same hj hf ?_)⟩
    rw [Path.same_comm, Path.same_congr hsame', hsame]

/-- For plain locations the lookup is a lookup among the locations. -/
theorem find?_path_eq_some_iff (hl : l.IsPlain) :
    g.find? l.path = some i ↔ g.locations[i]? = some l := by
  rw [h.find?_eq_some_iff, Graph.locations, List.getElem?_map, Option.map_eq_some_iff]
  refine exists_congr fun f => and_congr_right fun hf => ?_
  exact h.same_iff hf hl

theorem exists_file_of_find? (hl : l.IsPlain) (hi : g.find? l.path = some i) :
    ∃ f, g.file? i = some f ∧ f.location = l :=
  Graph.exists_file_of_location? ((h.find?_path_eq_some_iff hl).1 hi)

end Built

end SchemaGen
