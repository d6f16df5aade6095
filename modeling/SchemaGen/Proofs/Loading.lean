import SchemaGen.Proofs.BuiltGraph
import Mathlib.Logic.Relation

/-!
# Runs of the loader

Loading a file and loading what a file imports call each other. `Loads` states what one such call
does as rules, one for each way in which a call can end, so that a fact about all calls is shown by
going through the rules. The main fact is that sound catalogs stay sound: the graph is one that
loading builds, the paths of its files are remembered, and no file that is being loaded is in it.

Results:
1. `Catalog.loads_both`: the loader follows the rules.
2. `Loads.keeps`: what a call keeps and what it answers, whether it succeeds or fails.
3. `Reached.settled`: every catalog that loads lead to is sound, and nothing is being loaded in it.
-/

namespace SchemaGen

/-! ## Definitions -/

/-- What the loader is asked for. -/
inductive Request where
  | file (l : Location)
  | imports (file : String) (paths : List String)

namespace Request

/-- A file must be absent from the files that are being loaded before it is asked for. -/
def Admitted (c : Catalog) : Request → Prop
  | file l => l.IsPlain ∧ l ∉ c.loading
  | imports _ _ => True

/-- The numbers `ids` in the graph answer the request. -/
def Answered (fs : FileSystem) (root : Path) (g : Graph) : Request → List FileId → Prop
  | file l, ids => ∃ id, ids = [id] ∧ g.find? l.path = some id
  | imports _ paths, ids => List.Forall₂ (LeadsTo fs root g) paths ids

/-- The request asks for the file at `m`, or for one that reaches it through imports. -/
def Reaches (fs : FileSystem) (root : Path) : Request → Location → Prop
  | file l, m => Relation.ReflTransGen (Imports fs root) l m
  | imports _ paths, m => ∃ path ∈ paths, ∃ l, fs.canonicalize (root / path) = .ok l ∧
      Relation.ReflTransGen (Imports fs root) l m

end Request

/-- `Loads fs c r result c'`: asked for `r`, the loader goes from `c` to `c'` with this result. -/
inductive Loads (fs : FileSystem) :
    Catalog → Request → Except LoadError (List FileId) → Catalog → Prop
  | known {c : Catalog} {l : Location} {id : FileId} (hloaded : c.loaded? l.path = some id) :
      Loads fs c (.file l) (.ok [id]) c
  | unread {c : Catalog} {l : Location} {e : LoadError} (hnew : c.loaded? l.path = none)
      (hread : Catalog.read fs c.root l = .error e) : Loads fs c (.file l) (.error e) c
  | stuck {c after : Catalog} {l : Location} {d : Document} {e : LoadError}
      (hnew : c.loaded? l.path = none) (hread : Catalog.read fs c.root l = .ok d)
      (himports : Loads fs (c.enter l) (.imports (Catalog.nameOf c.root l) d.imports)
        (.error e) after) :
      Loads fs c (.file l) (.error e) after.leave
  | refused {c after : Catalog} {l : Location} {d : Document} {imported : List FileId}
      {e : LoadError} (hnew : c.loaded? l.path = none) (hread : Catalog.read fs c.root l = .ok d)
      (himports : Loads fs (c.enter l) (.imports (Catalog.nameOf c.root l) d.imports)
        (.ok imported) after)
      (hbuild : Catalog.build after.root after.graph l d imported = .error e) :
      Loads fs c (.file l) (.error e) after.leave
  | added {c after : Catalog} {l : Location} {d : Document} {imported : List FileId}
      {f : SchemaFile} (hnew : c.loaded? l.path = none) (hread : Catalog.read fs c.root l = .ok d)
      (himports : Loads fs (c.enter l) (.imports (Catalog.nameOf c.root l) d.imports)
        (.ok imported) after)
      (hbuild : Catalog.build after.root after.graph l d imported = .ok f) :
      Loads fs c (.file l) (.ok [after.graph.nextId]) (after.leave.add l f)
  | done {c : Catalog} {file : String} : Loads fs c (.imports file []) (.ok []) c
  | unresolved {c : Catalog} {file path : String} {paths : List String} {cause : FileError}
      (hpath : fs.canonicalize (c.root / path) = .error cause) :
      Loads fs c (.imports file (path :: paths)) (.error (.unresolvedImport file path)) c
  | cycle {c : Catalog} {file path : String} {paths : List String} {l : Location}
      (hpath : fs.canonicalize (c.root / path) = .ok l) (hloading : l ∈ c.loading) :
      Loads fs c (.imports file (path :: paths)) (.error (.importCycle file path)) c
  | failed {c after : Catalog} {file path : String} {paths : List String} {l : Location}
      {e : LoadError} (hpath : fs.canonicalize (c.root / path) = .ok l) (hloading : l ∉ c.loading)
      (hfirst : Loads fs c (.file l) (.error e) after) :
      Loads fs c (.imports file (path :: paths)) (.error (Catalog.importError file path e)) after
  | nextFails {c after final : Catalog} {file path : String} {paths : List String} {l : Location}
      {id : FileId} {e : LoadError} (hpath : fs.canonicalize (c.root / path) = .ok l)
      (hloading : l ∉ c.loading) (hfirst : Loads fs c (.file l) (.ok [id]) after)
      (hrest : Loads fs after (.imports file paths) (.error e) final) :
      Loads fs c (.imports file (path :: paths)) (.error e) final
  | next {c after final : Catalog} {file path : String} {paths : List String} {l : Location}
      {id : FileId} {ids : List FileId} (hpath : fs.canonicalize (c.root / path) = .ok l)
      (hloading : l ∉ c.loading) (hfirst : Loads fs c (.file l) (.ok [id]) after)
      (hrest : Loads fs after (.imports file paths) (.ok ids) final) :
      Loads fs c (.imports file (path :: paths)) (.ok (id :: ids)) final

/-- A catalog between two steps of the loader. -/
structure Sound (fs : FileSystem) (c : Catalog) : Prop where
  built : Built fs c.root c.graph
  loaded : ∀ p, c.loaded? p = c.graph.find? p
  waiting : ∀ l ∈ c.loading, l.IsPlain ∧ c.graph.find? l.path = none

/-! ## 1. The loader follows the rules -/

namespace Catalog

variable {fs : FileSystem} {c : Catalog}

theorem load_of_error {p : Path} {cause : FileError}
    (h : fs.canonicalize (c.root.join p) = .error cause) :
    (load fs p).run c = (.error (.unreadable (c.root.join p) cause), c) := by
  simp only [load, ExceptT.run, h]

variable {l : Location}

theorem load_of_ok {p : Path} (h : fs.canonicalize (c.root.join p) = .ok l) :
    (load fs p).run c = (loadAt fs c l).val := by
  simp only [load, ExceptT.run, h]

theorem loadAt_known {id : FileId} (h : c.loaded? l.path = some id) :
    (loadAt fs c l).val = (.ok id, c) := by
  rw [loadAt, h]

theorem loadAt_new {d : Document} (hnew : c.loaded? l.path = none)
    (hread : read fs c.root l = .ok d) :
    (loadAt fs c l).val =
      match (loadImports fs (c.enter l) (nameOf c.root l) d.imports).val with
      | (.error e, after) => (.error e, after.leave)
      | (.ok imported, after) =>
        match build after.root after.graph l d imported with
        | .error e => (.error e, after.leave)
        | .ok f => (.ok after.graph.nextId, after.leave.add l f) := by
  rw [loadAt, hnew, hread]
  rcases himports : loadImports fs (c.enter l) (nameOf c.root l) d.imports with
    ⟨⟨_ | imported, after⟩, same⟩
  · simp only [himports]
  · simp only [himports]
    cases build after.root after.graph l d imported <;> rfl

theorem loadImports_nil {file : String} : (loadImports fs c file []).val = (.ok [], c) := by
  rw [loadImports]

theorem loadImports_cons {file path : String} {paths : List String}
    (hpath : fs.canonicalize (c.root / path) = .ok l) (hloading : l ∉ c.loading) :
    (loadImports fs c file (path :: paths)).val =
      match (loadAt fs c l).val with
      | (.error e, after) => (.error (importError file path e), after)
      | (.ok id, after) =>
        ((loadImports fs after file paths).val.1.map (id :: ·),
          (loadImports fs after file paths).val.2) := by
  rw [loadImports, hpath]
  simp only [dif_neg hloading]
  rcases loadAt fs c l with ⟨⟨_ | id, after⟩, same⟩
  · rfl
  · simp only
    rcases loadImports fs after file paths with ⟨⟨_ | ids, final⟩, same'⟩ <;> rfl

end Catalog

/-- Both functions of the loader follow the rules, each as far as the calls it makes do. -/
theorem Catalog.loads_both (fs : FileSystem) :
    (∀ c l, Loads fs c (.file l) ((loadAt fs c l).val.1.map ([·])) (loadAt fs c l).val.2) ∧
      ∀ c file imports, Loads fs c (.imports file imports) (loadImports fs c file imports).val.1
        (loadImports fs c file imports).val.2 := by
  apply Catalog.loadAt.mutual_induct fs
    (fun c l => Loads fs c (.file l) ((loadAt fs c l).val.1.map ([·])) (loadAt fs c l).val.2)
    (fun c file imports => Loads fs c (.imports file imports)
      (loadImports fs c file imports).val.1 (loadImports fs c file imports).val.2)
  case case1 =>
    intro c l id hloaded
    rw [loadAt, hloaded]
    exact .known hloaded
  case case2 =>
    intro c l hnew e hread
    rw [loadAt, hnew, hread]
    exact .unread hnew hread
  case case3 =>
    intro c l hnew d hread e after same himports ih
    rw [himports] at ih
    rw [loadAt, hnew, hread]
    simp only [himports]
    exact .stuck hnew hread ih
  case case4 =>
    intro c l hnew d hread imported after same himports e hbuild ih
    rw [himports] at ih
    rw [loadAt, hnew, hread]
    simp only [himports, hbuild]
    exact .refused hnew hread ih hbuild
  case case5 =>
    intro c l hnew d hread imported after same himports f hbuild ih
    rw [himports] at ih
    rw [loadAt, hnew, hread]
    simp only [himports, hbuild]
    exact .added hnew hread ih hbuild
  case case6 =>
    intro c file
    rw [loadImports]
    exact .done
  case case7 =>
    intro c file path paths cause hpath
    rw [loadImports, hpath]
    exact .unresolved hpath
  case case8 =>
    intro c file path paths l hpath hloading
    rw [loadImports, hpath]
    simp only [dif_pos hloading]
    exact .cycle hpath hloading
  case case9 =>
    intro c file path paths l hpath hloading e after same hfirst ih
    rw [hfirst] at ih
    rw [loadImports, hpath]
    simp only [dif_neg hloading, hfirst]
    exact .failed hpath hloading ih
  case case10 =>
    intro c file path paths l hpath hloading id after same hfirst e final same' hrest ih ih'
    rw [hfirst] at ih
    rw [hrest] at ih'
    rw [loadImports, hpath]
    simp only [dif_neg hloading, hfirst, hrest]
    exact .nextFails hpath hloading ih ih'
  case case11 =>
    intro c file path paths l hpath hloading id after same hfirst ids final same' hrest ih ih'
    rw [hfirst] at ih
    rw [hrest] at ih'
    rw [loadImports, hpath]
    simp only [dif_neg hloading, hfirst, hrest]
    exact .next hpath hloading ih ih'

namespace Loads

variable {fs : FileSystem} {c c' : Catalog} {result : Except LoadError (List FileId)}

/-- The ways in which loading imports can go. -/
theorem imports_inv {file path : String} {paths : List String}
    (h : Loads fs c (.imports file (path :: paths)) result c') :
    (∃ cause, fs.canonicalize (c.root / path) = .error cause ∧
        result = .error (.unresolvedImport file path)) ∨
      ∃ l, fs.canonicalize (c.root / path) = .ok l ∧
        (l ∈ c.loading ∧ result = .error (.importCycle file path) ∨
          l ∉ c.loading ∧ ∃ first after, Loads fs c (.file l) first after ∧
            ((∃ e, first = .error e ∧ result = .error (Catalog.importError file path e)) ∨
              ∃ id rest final, first = .ok [id] ∧
                Loads fs after (.imports file paths) rest final ∧
                result = rest.map (id :: ·))) := by
  cases h with
  | unresolved hpath => exact .inl ⟨_, hpath, rfl⟩
  | cycle hpath hloading => exact .inr ⟨_, hpath, .inl ⟨hloading, rfl⟩⟩
  | failed hpath hloading hfirst =>
    exact .inr ⟨_, hpath, .inr ⟨hloading, _, _, hfirst, .inl ⟨_, rfl, rfl⟩⟩⟩
  | nextFails hpath hloading hfirst hrest =>
    exact .inr ⟨_, hpath, .inr ⟨hloading, _, _, hfirst, .inr ⟨_, _, _, rfl, hrest, rfl⟩⟩⟩
  | next hpath hloading hfirst hrest =>
    exact .inr ⟨_, hpath, .inr ⟨hloading, _, _, hfirst, .inr ⟨_, _, _, rfl, hrest, rfl⟩⟩⟩

end Loads

/-! ## 2. What a call keeps -/

namespace Sound

variable {fs : FileSystem} {c : Catalog} {l : Location}

theorem enter (hc : Sound fs c) (hl : l.IsPlain) (hnew : c.loaded? l.path = none) :
    Sound fs (c.enter l) where
  built := hc.built
  loaded := hc.loaded
  waiting m hm := by
    rcases List.mem_cons.1 hm with rfl | hm
    · exact ⟨hl, (hc.loaded m.path).symm.trans hnew⟩
    · exact hc.waiting m hm

theorem leave (hc : Sound fs c) : Sound fs c.leave where
  built := hc.built
  loaded := hc.loaded
  waiting m hm := hc.waiting m (List.mem_of_mem_tail hm)

/-- The table of loaded files and the graph take in a new file in step. -/
theorem add {d : Document} {imported : List FileId} {f : SchemaFile} (hc : Sound fs c)
    (hl : l ∉ c.loading) (next : Extends fs c.root c.graph l d imported f) :
    Sound fs (c.add l f) where
  built := hc.built.insert next
  loaded p := by
    -- The new entry is first in the table and last in the graph. This makes no difference, since no
    -- file of the graph has its path.
    have hfind : (c.graph.insert f).find? p =
        (c.graph.find? p).or (if l.path.same p then some c.graph.nextId else none) := by
      rw [Graph.find?, next.files_insert, List.find?_append, Option.map_or, List.find?_singleton,
        next.path_eq, Graph.find?]
      congr 1
      split
      · exact congrArg some next.id_eq
      · rfl
    have hloaded : (c.add l f).loaded? p =
        if l.path.same p then some c.graph.nextId else c.loaded? p := by
      rw [Catalog.loaded?, Catalog.add, List.find?_cons]
      cases l.path.same p <;> rfl
    rw [hloaded, show (c.add l f).graph = c.graph.insert f from rfl, hfind, hc.loaded p]
    split
    · next hsame => rw [← c.graph.find?_congr hsame, next.new, Option.none_or]
    · rw [Option.or_none]
  waiting m hm := by
    obtain ⟨hplain, hnone⟩ := hc.waiting m hm
    have hne : m ≠ l := fun heq => hl (heq ▸ hm)
    refine ⟨hplain, ((hc.built.insert next).find?_eq_none_iff hplain).2 ?_⟩
    rw [next.locations_insert, List.mem_append, List.mem_singleton, not_or]
    exact ⟨(hc.built.find?_eq_none_iff hplain).1 hnone, hne⟩

end Sound

/-- What a call of the loader keeps, and that its result is right. -/
structure Keeps (fs : FileSystem) (c : Catalog) (r : Request)
    (result : Except LoadError (List FileId)) (c' : Catalog) : Prop where
  sound : Sound fs c'
  root : c'.root = c.root
  loading : c'.loading = c.loading
  grows : c.graph.files <+: c'.graph.files
  answered : ∀ ids, result = .ok ids → r.Answered fs c.root c'.graph ids
  /-- Nothing is loaded that is not asked for. -/
  only : ∀ m ∈ c'.graph.locations, m ∈ c.graph.locations ∨ r.Reaches fs c.root m

variable {fs : FileSystem} {c after : Catalog} {l : Location} {d : Document} {name : String}
  {result : Except LoadError (List FileId)}

/-- Once all that a file imports is loaded, the file is the next one to be added. -/
theorem Keeps.prepared {imported : List FileId}
    (h : Keeps fs (c.enter l) (.imports name d.imports) (.ok imported) after) (hl : l.IsPlain)
    (hread : Catalog.read fs c.root l = .ok d) :
    Prepared fs after.root after.graph l d imported where
  plain := hl
  new := (h.sound.waiting l (h.loading ▸ List.mem_cons_self)).2
  holds := Catalog.read_eq_ok_iff.1 hread
  leads := h.root ▸ h.answered imported rfl

/-- A call that fails at once changes nothing. -/
theorem Keeps.of_error (hc : Sound fs c) (r : Request) (e : LoadError) :
    Keeps fs c r (.error e) c :=
  ⟨hc, rfl, rfl, List.prefix_rfl, nofun, fun _ => .inl⟩

theorem Request.Reaches.of_imports {root : Path} {m : Location}
    (hread : Catalog.read fs root l = .ok d) (h : (imports name d.imports).Reaches fs root m) :
    (file l).Reaches fs root m := by
  obtain ⟨path, hpath, l', hl', hsteps⟩ := h
  exact .head ⟨d, Catalog.read_eq_ok_iff.1 hread, path, hpath, hl'⟩ hsteps

/-- A file that is given up once its imports were looked at leaves what these have added. -/
theorem Keeps.leave (h : Keeps fs (c.enter l) (.imports name d.imports) result after)
    (hread : Catalog.read fs c.root l = .ok d) (e : LoadError) :
    Keeps fs c (.file l) (.error e) after.leave where
  sound := h.sound.leave
  root := h.root
  loading := congrArg List.tail h.loading
  grows := h.grows
  answered := nofun
  only m hm := (h.only m hm).imp_right (.of_imports hread)

theorem Request.Answered.grow {root : Path} {g g' : Graph} {r : Request} {ids : List FileId}
    (h : r.Answered fs root g ids) (hgrows : g.files <+: g'.files) : r.Answered fs root g' ids := by
  cases r with
  | file l =>
    obtain ⟨id, hids, hid⟩ := h
    exact ⟨id, hids, Graph.find?_mono hgrows hid⟩
  | imports file paths =>
    refine List.Forall₂.imp ?_ h
    rintro path id ⟨m, hm, hid⟩
    exact ⟨m, hm, Graph.find?_mono hgrows hid⟩

theorem only_next {final : Catalog} {file path : String} {paths : List String}
    {result' : Except LoadError (List FileId)} (hpath : fs.canonicalize (c.root / path) = .ok l)
    (hfirst : Keeps fs c (.file l) result after)
    (hrest : Keeps fs after (.imports file paths) result' final) :
    ∀ m ∈ final.graph.locations, m ∈ c.graph.locations ∨
      (Request.imports file (path :: paths)).Reaches fs c.root m := by
  intro m hm
  rcases hrest.only m hm with hafter | ⟨path', hpath', l', hl', hsteps⟩
  · refine (hfirst.only m hafter).imp_right fun hsteps => ?_
    exact ⟨path, List.mem_cons_self, l, hpath, hsteps⟩
  · rw [hfirst.root] at hl' hsteps
    exact .inr ⟨path', List.mem_cons_of_mem _ hpath', l', hl', hsteps⟩

theorem Loads.keeps {c' : Catalog} {r : Request} (h : Loads fs c r result c') (hc : Sound fs c)
    (hr : r.Admitted c) : Keeps fs c r result c' := by
  induction h with
  | @known c l id hloaded =>
    refine ⟨hc, rfl, rfl, List.prefix_rfl, ?_, fun _ => .inl⟩
    rintro _ ⟨⟩
    exact ⟨id, rfl, (hc.loaded l.path).symm.trans hloaded⟩
  | unread => exact .of_error hc _ _
  | stuck hnew hread himports ih => exact (ih (hc.enter hr.1 hnew) trivial).leave hread _
  | refused hnew hread himports hbuild ih => exact (ih (hc.enter hr.1 hnew) trivial).leave hread _
  | @added c after l d imported f hnew hread himports hbuild ih =>
    have hkeeps := ih (hc.enter hr.1 hnew) trivial
    have htail : after.leave.loading = c.loading := congrArg List.tail hkeeps.loading
    have hnext : Extends fs after.leave.root after.leave.graph l d imported f :=
      ⟨hkeeps.prepared hr.1 hread, hbuild⟩
    -- The stack is what it was before the file was put on it, and the file was not on it then.
    have hnew' : l ∉ after.leave.loading := by
      rw [htail]
      exact hr.2
    refine ⟨hkeeps.sound.leave.add hnew' hnext, hkeeps.root, htail,
      hkeeps.grows.trans hnext.prefix_insert, ?_, ?_⟩
    · rintro _ ⟨⟩
      refine ⟨after.graph.nextId, rfl, (hkeeps.sound.built.insert hnext).find?_eq_some_iff.2 ?_⟩
      refine ⟨f, hnext.file?_insert_iff.2 (.inr ⟨rfl, rfl⟩), ?_⟩
      rw [hnext.path_eq, Location.same_path_iff hnext.plain hnext.plain]
    · intro m hm
      have hm' : m ∈ after.graph.locations ++ [l] := hnext.locations_insert ▸ hm
      rcases List.mem_append.1 hm' with hold | hlast
      · exact (hkeeps.only m hold).imp_right (.of_imports hread)
      · obtain rfl := List.mem_singleton.1 hlast
        exact .inr .refl
  | done =>
    refine ⟨hc, rfl, rfl, List.prefix_rfl, ?_, fun _ => .inl⟩
    rintro _ ⟨⟩
    exact .nil
  | unresolved => exact .of_error hc _ _
  | cycle => exact .of_error hc _ _
  | @failed c after file path paths l e hpath hloading hfirst ih =>
    obtain ⟨hsound, hroot, hloading', hgrows, -, honly⟩ :=
      ih hc ⟨hc.built.plain_of_leads hpath, hloading⟩
    exact ⟨hsound, hroot, hloading', hgrows, nofun,
      fun m hm => (honly m hm).imp_right fun hsteps => ⟨path, List.mem_cons_self, l, hpath, hsteps⟩⟩
  | @nextFails c after final file path paths l id e hpath hloading hfirst hrest ih ih' =>
    have hfirst' := ih hc ⟨hc.built.plain_of_leads hpath, hloading⟩
    have hrest' := ih' hfirst'.sound trivial
    exact ⟨hrest'.sound, hrest'.root.trans hfirst'.root, hrest'.loading.trans hfirst'.loading,
      hfirst'.grows.trans hrest'.grows, nofun, only_next hpath hfirst' hrest'⟩
  | @next c after final file path paths l id ids hpath hloading hfirst hrest ih ih' =>
    have hfirst' := ih hc ⟨hc.built.plain_of_leads hpath, hloading⟩
    have hrest' := ih' hfirst'.sound trivial
    refine ⟨hrest'.sound, hrest'.root.trans hfirst'.root, hrest'.loading.trans hfirst'.loading,
      hfirst'.grows.trans hrest'.grows, ?_, only_next hpath hfirst' hrest'⟩
    rintro _ ⟨⟩
    obtain ⟨_, ⟨⟩, hid⟩ := (hfirst'.answered _ rfl).grow hrest'.grows
    have hids := hrest'.answered ids rfl
    rw [hfirst'.root] at hids
    exact .cons ⟨l, hpath, hid⟩ hids

/-! ## 3. Catalogs that loads lead to -/

/-- A catalog between two loads. -/
structure Settled (fs : FileSystem) (c : Catalog) : Prop extends Sound fs c where
  idle : c.loading = []

/-- The catalogs that any number of loads, of whatever results, lead to from `start`. -/
inductive Reached (fs : FileSystem) (start : Catalog) : Catalog → Prop
  | start : Reached fs start start
  | load {c : Catalog} (p : Path) (before : Reached fs start c) :
      Reached fs start ((Catalog.load fs p).run c).2

theorem Settled.of_ofRoot {dir : Path} {start : Catalog} (h : Catalog.ofRoot fs dir = .ok start) :
    Settled fs start := by
  unfold Catalog.ofRoot at h
  split at h
  · next location _ =>
    cases h
    exact ⟨⟨.empty location.isAbsolute_path, fun _ => rfl, fun _ => nofun⟩, rfl⟩
  · cases h

theorem Settled.admitted (hc : Settled fs c) {p : Path}
    (hl : fs.canonicalize (c.root.join p) = .ok l) : (Request.file l).Admitted c :=
  ⟨FileSystem.plain_of_canonicalize (Path.isAbsolute_join hc.built.absolute p) hl,
    hc.idle ▸ List.not_mem_nil⟩

/-- What a load of the path `p` does in a settled catalog. -/
theorem Settled.load (hc : Settled fs c) (p : Path) :
    Settled fs ((Catalog.load fs p).run c).2 ∧ ((Catalog.load fs p).run c).2.root = c.root ∧
      c.graph.files <+: ((Catalog.load fs p).run c).2.graph.files ∧
      ∀ id, ((Catalog.load fs p).run c).1 = .ok id → ∃ l, fs.canonicalize (c.root.join p) = .ok l ∧
        l.IsPlain ∧ ((Catalog.load fs p).run c).2.graph.find? l.path = some id ∧
        ∀ m ∈ ((Catalog.load fs p).run c).2.graph.locations,
          m ∈ c.graph.locations ∨ Relation.ReflTransGen (Imports fs c.root) l m := by
  cases hl : fs.canonicalize (c.root.join p) with
  | error cause =>
    rw [Catalog.load_of_error hl]
    exact ⟨hc, rfl, List.prefix_rfl, nofun⟩
  | ok l =>
    rw [Catalog.load_of_ok hl]
    have hadmitted := hc.admitted hl
    obtain ⟨hsound, hroot, hloading, hgrows, hanswered, honly⟩ :=
      ((Catalog.loads_both fs).1 c l).keeps hc.toSound hadmitted
    refine ⟨⟨hsound, hloading.trans hc.idle⟩, hroot, hgrows, fun id hid => ?_⟩
    refine ⟨l, rfl, hadmitted.1, ?_, honly⟩
    rw [hid] at hanswered
    obtain ⟨_, ⟨⟩, hfound⟩ := hanswered [id] rfl
    exact hfound

theorem Reached.settled {start : Catalog} (h : Reached fs start c) (hstart : Settled fs start) :
    Settled fs c ∧ c.root = start.root := by
  induction h with
  | start => exact ⟨hstart, rfl⟩
  | load p _ ih =>
    obtain ⟨hc, hroot⟩ := ih
    obtain ⟨hsettled, hroot', -, -⟩ := hc.load p
    exact ⟨hsettled, hroot'.trans hroot⟩

end SchemaGen
