import SchemaGen.Proofs.IndexFiles
import SchemaGen.Proofs.RootOrder
import Mathlib.Data.List.Find

/-!
# Files in another order

Where different paths lead to different places, a file holds in the end what was last written for
its path. So the same files can be written in another order, as long as the last one for each path
is the same.

The sources of two runs and their indexes can be written in two orders: all indexes at the end, for
the modules of both runs, or those of the first run before the sources of the second one. Then only
an index that is written twice can be different. It lacks modules of the first run in the second
order.

Results:
1. `WriteOrderLemmas.contents_of_path`: what files hold if different paths lead to different places.
2. `Rust.lastFor_index`, `Rust.bytes_index_iff`: indexes in both orders.
3. `Rust.sameOutput_of_orders_iff`: when both orders have the same outputs.
-/

namespace SchemaGen

variable {σ : Type}

/-! ## Definitions -/

/-- The lines of the last one of the files with the path `p`. -/
def GeneratedFile.lastFor (p : Path) (files : List GeneratedFile) : Option (List String) :=
  (files.reverse.find? (·.path = p)).map (·.lines)

/-- Different ones of the paths lead to different places. -/
def FileSystem.KeepsApart (fs : FileSystem) (paths : List Path) : Prop :=
  ∀ p ∈ paths, ∀ q ∈ paths, fs.SameFile p q → p = q

namespace Rust

/-- The names that the index of a directory declares. -/
def namesIn (cs : List Child) (directory : List String) : List String :=
  ordered (fun a b => decide (a ≤ b)) ((cs.filter (·.directory = directory)).map (·.name))

/-- The modules that the index of a directory declares in the end, when indexes are written for
`noted` and then for `later`. -/
def lastNoted (noted later : List Child) (directory : List String) : List Child :=
  if ∃ c ∈ later, c.directory = directory then later else noted

/-- The files in the order of one run. -/
def filesAtOnce (o : Output) (noted later : List Child) (sources : List GeneratedFile) :
    List GeneratedFile :=
  sources ++ (indexes (noted ++ later)).map (indexOf o)

/-- The files in the order of two runs, from the end of the sources of the first one on. -/
def filesInTurn (o : Output) (noted later : List Child) (sources : List GeneratedFile) :
    List GeneratedFile :=
  (indexes noted).map (indexOf o) ++ (sources ++ (indexes later).map (indexOf o))

end Rust

/-! ## 1. Files by their paths -/

namespace GeneratedFile

theorem lastFor_append (p : Path) (files more : List GeneratedFile) :
    lastFor p (files ++ more) = (lastFor p more).or (lastFor p files) := by
  rw [lastFor, List.reverse_append, List.find?_append, Option.map_or, ← lastFor, ← lastFor]

theorem lastFor_eq_none_iff {p : Path} {files : List GeneratedFile} :
    lastFor p files = none ↔ p ∉ files.map (·.path) := by
  rw [lastFor, Option.map_eq_none_iff, List.find?_eq_none, List.mem_map]
  simp only [List.mem_reverse, decide_eq_true_eq, not_exists, not_and]

/-- Where a path leads to a place of its own, the last file there is the last one with the path. -/
theorem lastAt_eq_lastFor {l : Location} {p : Path} {placed : List (GeneratedFile × Location)}
    (h : ∀ e ∈ placed, e.2 = l ↔ e.1.path = p) :
    lastAt l placed = lastFor p (placed.map (·.1)) := by
  rw [lastAt, lastFor, ← List.map_reverse, List.find?_map, Option.map_map]
  congr 1
  refine List.find?_congr fun e he => ?_
  exact decide_eq_decide.2 (h e (List.mem_reverse.1 he))

theorem lastFor_map {α : Type} [DecidableEq α] {file : α → GeneratedFile} {a : α} {items : List α}
    (hinj : ∀ b ∈ items, (file b).path = (file a).path → b = a) :
    lastFor (file a).path (items.map file) = if a ∈ items then some (file a).lines else none := by
  induction items with
  | nil => rfl
  | cons b rest ih =>
    have hlast := ih fun c hc => hinj c (List.mem_cons_of_mem _ hc)
    rw [List.map_cons, ← List.singleton_append, lastFor_append, hlast]
    by_cases hrest : a ∈ rest
    · rw [if_pos hrest, if_pos (List.mem_cons_of_mem _ hrest)]
      rfl
    · rw [if_neg hrest, Option.none_or]
      by_cases heq : a = b
      · subst heq
        simp [lastFor]
      · have hpath : (file b).path ≠ (file a).path :=
          fun hpath => heq (hinj b List.mem_cons_self hpath).symm
        simp [lastFor, hpath, heq, hrest]

end GeneratedFile

namespace WriteOrderLemmas

variable {w now now' : Workspace σ} {files files' : List GeneratedFile}

/-- What lies at the place of a file. -/
theorem contents_of_path (h : w.Writes files now) (hroot : w.files.HasDirectory [])
    (hapart : now.files.KeepsApart (files.map (·.path))) {p : Path} (hp : p ∈ files.map (·.path))
    {l : Location} (hl : now.files.Reaches .reach p p.steps l) :
    now.files.contents? l = (GeneratedFile.lastFor p files).map Output.bytes := by
  obtain ⟨placed, rfl, hwrote⟩ := h
  have hlast : GeneratedFile.lastAt l placed = GeneratedFile.lastFor p (placed.map (·.1)) := by
    refine GeneratedFile.lastAt_eq_lastFor fun e he => ?_
    have hreaches := hwrote.reaches hroot e he
    constructor
    · intro heq
      exact hapart _ (List.mem_map_of_mem (List.mem_map_of_mem he)) _ hp ⟨l, heq ▸ hreaches, hl⟩
    · intro heq
      rw [heq] at hreaches
      exact hreaches.unique (FileSystem.Grows.refl _).sameLinks (by simp) (by simp) hl
  have hsome : GeneratedFile.lastFor p (placed.map (·.1)) ≠ none := by
    rw [Ne, GeneratedFile.lastFor_eq_none_iff, not_not]
    exact hp
  obtain ⟨lines, hlines⟩ := Option.ne_none_iff_exists'.1 hsome
  rw [hwrote.contents?_eq, hlast, hlines]
  rfl

/-- All other places are left as they are. -/
theorem contents_elsewhere (h : w.Writes files now) (hroot : w.files.HasDirectory [])
    {l : Location}
    (hl : ∀ p ∈ files.map (·.path), ¬ now.files.Reaches .reach p p.steps l) :
    now.files.contents? l = w.files.contents? l := by
  obtain ⟨placed, rfl, hwrote⟩ := h
  refine hwrote.changes.contents l fun hmem => ?_
  obtain ⟨e, he, rfl⟩ := List.mem_map.1 hmem
  exact hl e.1.path (List.mem_map_of_mem (List.mem_map_of_mem he)) (hwrote.reaches hroot e he)

theorem apart_of_written (h : w.Writes files now)
    (hapart : now.files.KeepsApart now.output.written) :
    now.files.KeepsApart (files.map (·.path)) := by
  obtain ⟨placed, rfl, hwrote⟩ := h
  have hwritten : ∀ p ∈ (placed.map (·.1)).map (·.path), p ∈ now.output.written := by
    intro p hp
    rw [List.map_map] at hp
    rw [hwrote.written]
    exact List.mem_append_right _ hp
  exact fun p hp q hq => hapart p (hwritten p hp) q (hwritten q hq)

theorem written_beside (h : w.Writes files now) (h' : w.Writes files' now')
    (hpaths : ∀ p, p ∈ files.map (·.path) ↔ p ∈ files'.map (·.path)) (p : Path) :
    p ∈ now.output.written ↔ p ∈ now'.output.written := by
  obtain ⟨placed, rfl, hwrote⟩ := h
  obtain ⟨placed', rfl, hwrote'⟩ := h'
  have hpath := hpaths p
  rw [List.map_map, List.map_map] at hpath
  rw [hwrote.written, hwrote'.written, List.mem_append, List.mem_append]
  exact or_congr_right hpath

section Beside

variable (h : w.Writes files now) (h' : w.Writes files' now') (hroot : w.files.HasDirectory [])
  (hpaths : ∀ p, p ∈ files.map (·.path) ↔ p ∈ files'.map (·.path))

include h h' hroot hpaths

theorem reaches_beside {p : Path} (hp : p ∈ files.map (·.path)) (l : Location) :
    now.files.Reaches .reach p p.steps l ↔ now'.files.Reaches .reach p p.steps l := by
  have hlinks := (h.grows hroot).sameLinks.symm.trans (h'.grows hroot).sameLinks
  obtain ⟨m, hm, -⟩ := h.exists_file hroot hp
  obtain ⟨m', hm', -⟩ := h'.exists_file hroot ((hpaths p).1 hp)
  obtain rfl := hm.unique hlinks (by simp) (by simp) hm'
  constructor
  · intro hl
    obtain rfl := hl.unique hlinks (by simp) (by simp) hm'
    exact hm'
  · intro hl
    obtain rfl := hm.unique hlinks (by simp) (by simp) hl
    exact hm

variable (hapart : now.files.KeepsApart (files.map (·.path)))

include hapart

theorem apart_beside : now'.files.KeepsApart (files'.map (·.path)) := by
  intro p hp q hq hsame
  obtain ⟨l, hl, hl'⟩ := hsame
  rw [← hpaths] at hp hq
  exact hapart p hp q hq ⟨l, (reaches_beside h h' hroot hpaths hp l).2 hl,
    (reaches_beside h h' hroot hpaths hq l).2 hl'⟩

/-- Files with the same paths that are written from the same start: a place holds the same, if the
last file for its path is the same. -/
theorem contents_beside {l : Location}
    (hlast : ∀ p ∈ files.map (·.path), now.files.Reaches .reach p p.steps l →
      (GeneratedFile.lastFor p files).map Output.bytes =
        (GeneratedFile.lastFor p files').map Output.bytes) :
    now.files.contents? l = now'.files.contents? l := by
  by_cases hl : ∃ p ∈ files.map (·.path), now.files.Reaches .reach p p.steps l
  · obtain ⟨p, hp, hreaches⟩ := hl
    rw [contents_of_path h hroot hapart hp hreaches, hlast p hp hreaches,
      contents_of_path h' hroot (apart_beside h h' hroot hpaths hapart) ((hpaths p).1 hp)
        ((reaches_beside h h' hroot hpaths hp l).1 hreaches)]
  · have hnone : ∀ p ∈ files.map (·.path), ¬ now.files.Reaches .reach p p.steps l :=
      fun p hp hreaches => hl ⟨p, hp, hreaches⟩
    rw [contents_elsewhere h hroot hnone, contents_elsewhere h' hroot]
    intro p hp hreaches
    rw [← hpaths] at hp
    exact hnone p hp ((reaches_beside h h' hroot hpaths hp l).2 hreaches)

theorem sameOutput_iff : now.SameOutput now' ↔ ∀ p ∈ files.map (·.path),
    (GeneratedFile.lastFor p files).map Output.bytes =
      (GeneratedFile.lastFor p files').map Output.bytes := by
  constructor
  · intro hsame p hp
    obtain ⟨l, hl, -⟩ := h.exists_file hroot hp
    rw [← contents_of_path h hroot hapart hp hl, hsame.contents l]
    exact contents_of_path h' hroot (apart_beside h h' hroot hpaths hapart) ((hpaths p).1 hp)
      ((reaches_beside h h' hroot hpaths hp l).1 hl)
  · intro hlast
    exact ⟨written_beside h h' hpaths,
      fun l => contents_beside h h' hroot hpaths hapart fun p hp _ => hlast p hp⟩

end Beside

end WriteOrderLemmas

/-! ## 2. Indexes -/

namespace Rust

open ModuleFilesLemmas

theorem mem_namesIn {cs : List Child} {directory : List String} {name : String} :
    name ∈ namesIn cs directory ↔ ⟨directory, name⟩ ∈ cs := by
  rw [namesIn, (ordered_names _).2, List.mem_map]
  constructor
  · rintro ⟨c, hc, rfl⟩
    obtain ⟨hmem, hdirectory⟩ := List.mem_filter.1 hc
    obtain rfl := of_decide_eq_true hdirectory
    exact hmem
  · intro hmem
    exact ⟨_, List.mem_filter.2 ⟨hmem, decide_eq_true rfl⟩, rfl⟩

theorem namesIn_congr {cs cs' : List Child} {directory : List String}
    (h : ∀ name, (⟨directory, name⟩ : Child) ∈ cs ↔ ⟨directory, name⟩ ∈ cs') :
    namesIn cs directory = namesIn cs' directory := by
  refine eq_of_ordered (fun a b hab => String.ne_of_lt hab)
    (fun a b hab hba => absurd hba (String.lt_asymm hab)) (ordered_names _).1 (ordered_names _).1
    fun name => ?_
  exact mem_namesIn.trans ((h name).trans mem_namesIn.symm)

theorem size_bytes (lines : List String) :
    (Output.bytes lines).size = (lines.map (·.utf8ByteSize + 1)).sum := by
  induction lines with
  | nil => rfl
  | cons text rest ih =>
    rw [← List.singleton_append, Output.bytes_append, ByteArray.size_append, ih,
      Output.bytes_singleton, List.map_append, List.sum_append]
    simp [show "\n".utf8ByteSize = 1 by decide]

/-- The bytes of an index tell its names from fewer ones. -/
theorem subset_of_bytes_eq {tool : String} {names others : List String} (hnames : names.Nodup)
    (hsub : names ⊆ others)
    (h : Output.bytes (indexLines tool names) = Output.bytes (indexLines tool others)) :
    others ⊆ names := by
  obtain ⟨l, hl, hsublist⟩ := List.subperm_of_subset hnames hsub
  obtain ⟨more, hmore⟩ := hsublist.exists_perm_append
  have hperm : others.Perm (names ++ more) := hmore.trans (hl.append_right more)
  have hsize := congrArg ByteArray.size h
  simp only [size_bytes, indexLines, List.map_append, List.sum_append, List.map_map] at hsize
  rw [(hperm.map _).sum_nat] at hsize
  -- Each further name would take bytes.
  have hempty : more = [] := by
    cases more with
    | nil => rfl
    | cons name rest => simp at hsize
  rw [hempty, List.append_nil] at hperm
  exact hperm.subset

/-- The indexes, directory by directory. -/
theorem indexes_eq (o : Output) (cs : List Child) :
    (indexes cs).map (indexOf o) = (ordered notBehind (cs.map (·.directory))).map fun directory =>
      indexOf o (directory, namesIn cs directory) := by
  rw [indexes, List.map_map]
  rfl

theorem mem_paths_indexes {o : Output} {cs : List Child} {p : Path} :
    p ∈ ((indexes cs).map (indexOf o)).map (·.path) ↔
      ∃ directory ∈ cs.map (·.directory), indexPath o.root o.extension directory = p := by
  rw [indexes_eq, List.map_map, List.mem_map]
  simp only [mem_directories]
  rfl

theorem lastFor_indexes {o : Output} {cs : List Child} {directory : List String}
    (hdirectory : ∀ m ∈ directory, IsModule m) (hcs : ∀ c ∈ cs, ∀ m ∈ c.directory, IsModule m) :
    GeneratedFile.lastFor (indexPath o.root o.extension directory)
        ((indexes cs).map (indexOf o)) =
      if directory ∈ cs.map (·.directory) then some (indexLines o.tool (namesIn cs directory))
      else none := by
  have hinj : ∀ d ∈ ordered notBehind (cs.map (·.directory)),
      (indexOf o (d, namesIn cs d)).path = (indexOf o (directory, namesIn cs directory)).path →
        d = directory := by
    intro d hd hpath
    obtain ⟨c, hc, rfl⟩ := List.mem_map.1 (mem_directories.1 hd)
    have hsame : (indexPath o.root o.extension c.directory).same
        (indexPath o.root o.extension directory) = true :=
      decide_eq_true (congrArg Path.components hpath)
    exact (same_indexPath_iff (hcs c hc) hdirectory).1 hsame
  rw [indexes_eq]
  refine (GeneratedFile.lastFor_map hinj).trans ?_
  simp only [mem_directories]
  rfl

section Orders

variable {o : Output} {noted later : List Child} {sources : List GeneratedFile}

theorem mem_paths_filesInTurn {p : Path} :
    p ∈ (filesAtOnce o noted later sources).map (·.path) ↔
      p ∈ (filesInTurn o noted later sources).map (·.path) := by
  simp only [filesAtOnce, filesInTurn, List.map_append, List.mem_append]
  rw [mem_paths_indexes, mem_paths_indexes, mem_paths_indexes]
  simp only [List.map_append, List.mem_append, or_and_right, exists_or]
  exact or_left_comm

/-- Only the indexes can differ. -/
theorem lastFor_source {p : Path}
    (hp : ∀ directory ∈ (noted ++ later).map (·.directory),
      indexPath o.root o.extension directory ≠ p) :
    GeneratedFile.lastFor p (filesAtOnce o noted later sources) =
      GeneratedFile.lastFor p (filesInTurn o noted later sources) := by
  have hnone {cs : List Child} (hcs : cs ⊆ noted ++ later) :
      GeneratedFile.lastFor p ((indexes cs).map (indexOf o)) = none := by
    rw [GeneratedFile.lastFor_eq_none_iff, mem_paths_indexes]
    rintro ⟨directory, hdirectory, hpath⟩
    exact hp directory (List.map_subset _ hcs hdirectory) hpath
  rw [filesAtOnce, filesInTurn, GeneratedFile.lastFor_append, GeneratedFile.lastFor_append,
    GeneratedFile.lastFor_append, hnone (List.Subset.refl _), hnone (List.subset_append_left _ _),
    hnone (List.subset_append_right _ _), Option.or_none]

variable (hmodules : ∀ c ∈ noted ++ later, ∀ m ∈ c.directory, IsModule m)
  (hsources : ∀ directory ∈ (noted ++ later).map (·.directory),
    indexPath o.root o.extension directory ∉ sources.map (·.path))
  {directory : List String} (hdirectory : directory ∈ (noted ++ later).map (·.directory))

include hmodules hsources hdirectory

/-- What the index of a directory declares in both orders. -/
theorem lastFor_index :
    GeneratedFile.lastFor (indexPath o.root o.extension directory)
        (filesAtOnce o noted later sources) =
      some (indexLines o.tool (namesIn (noted ++ later) directory)) ∧
    GeneratedFile.lastFor (indexPath o.root o.extension directory)
        (filesInTurn o noted later sources) =
      some (indexLines o.tool (namesIn (lastNoted noted later directory) directory)) := by
  have hmodule : ∀ m ∈ directory, IsModule m := by
    obtain ⟨c, hc, rfl⟩ := List.mem_map.1 hdirectory
    exact hmodules c hc
  have hnone := GeneratedFile.lastFor_eq_none_iff.2 (hsources directory hdirectory)
  have hnoted : ∀ c ∈ noted, ∀ m ∈ c.directory, IsModule m :=
    fun c hc => hmodules c (List.mem_append_left _ hc)
  have hlater : ∀ c ∈ later, ∀ m ∈ c.directory, IsModule m :=
    fun c hc => hmodules c (List.mem_append_right _ hc)
  constructor
  · rw [filesAtOnce, GeneratedFile.lastFor_append, lastFor_indexes hmodule hmodules,
      if_pos hdirectory]
    rfl
  · rw [filesInTurn, GeneratedFile.lastFor_append, GeneratedFile.lastFor_append, hnone,
      Option.or_none, lastFor_indexes hmodule hlater, lastFor_indexes hmodule hnoted, lastNoted]
    by_cases hmem : directory ∈ later.map (·.directory)
    · rw [if_pos hmem, if_pos (List.mem_map.1 hmem)]
      rfl
    · rw [if_neg hmem, if_neg (mt List.mem_map.2 hmem), Option.none_or, if_pos]
      rw [List.map_append, List.mem_append] at hdirectory
      exact hdirectory.resolve_right hmem

end Orders

/-- An index is the same in both orders just if no module of the first run is missing in it. -/
theorem bytes_index_iff {tool : String} {noted later : List Child} {directory : List String} :
    Output.bytes (indexLines tool (namesIn (noted ++ later) directory)) =
        Output.bytes (indexLines tool (namesIn (lastNoted noted later directory) directory)) ↔
      (directory ∈ later.map (·.directory) →
        ∀ c ∈ noted, c.directory = directory → c ∈ later) := by
  by_cases hmem : directory ∈ later.map (·.directory)
  · rw [lastNoted, if_pos (List.mem_map.1 hmem)]
    constructor
    · rintro hbytes - c hc rfl
      have hsub : namesIn later c.directory ⊆ namesIn (noted ++ later) c.directory :=
        fun name hname => mem_namesIn.2 (List.mem_append_right _ (mem_namesIn.1 hname))
      have hnodup : (namesIn later c.directory).Nodup :=
        (ordered_names _).1.imp fun {a b} hab => String.ne_of_lt hab
      have hall := subset_of_bytes_eq hnodup hsub hbytes.symm
      exact mem_namesIn.1 (hall (mem_namesIn.2 (List.mem_append_left _ hc)))
    · intro h
      rw [namesIn_congr fun name => ?_]
      rw [List.mem_append]
      exact or_iff_right_of_imp fun hc => h hmem _ hc rfl
  · rw [lastNoted, if_neg (mt List.mem_map.2 hmem)]
    refine iff_of_true ?_ fun hdirectory => absurd hdirectory hmem
    rw [namesIn_congr fun name => ?_]
    rw [List.mem_append]
    refine or_iff_left_of_imp fun hc => absurd ?_ hmem
    exact List.mem_map.2 ⟨_, hc, rfl⟩

theorem isModule_of_neededBy {files : List SchemaFile} (h : ∀ f ∈ files, f.Named) :
    ∀ c ∈ neededBy files, ∀ m ∈ c.directory, IsModule m := by
  intro c hc
  refine isModule_of_indexed h ?_
  rw [indexed_eq]
  exact mem_directories.2 (List.mem_map_of_mem hc)

/-- No source of a file is the index of a directory. -/
theorem indexPath_not_mem {o : Output} {g : Graph} {files sources : List SchemaFile}
    (h : ∀ f ∈ files, f.Named) (hsources : sources ⊆ files) :
    ∀ directory ∈ (neededBy files).map (·.directory),
      indexPath o.root o.extension directory ∉ (sources.map (sourceOf o g)).map (·.path) := by
  intro directory hdirectory hmem
  obtain ⟨c, hc, rfl⟩ := List.mem_map.1 hdirectory
  rw [List.map_map] at hmem
  obtain ⟨f, hf, hpath⟩ := List.mem_map.1 hmem
  have hapart : (sourcePath o.root o.extension f).same (indexPath o.root o.extension c.directory) =
      false :=
    not_same_indexPath (h f (hsources hf)).isModule (isModule_of_neededBy h c hc)
      (isModule_fileModule f)
  rw [show sourcePath o.root o.extension f = _ from hpath] at hapart
  exact absurd (decide_eq_true rfl) (Bool.eq_false_iff.1 hapart)

end Rust

/-! ## 3. Outputs in both orders -/

namespace Rust

open WriteOrderLemmas

section Outputs

variable {w single split : Workspace σ} {o : Output} {noted later : List Child}
  {sources : List GeneratedFile}
  (hsingle : w.Writes (filesAtOnce o noted later sources) single)
  (hsplit : w.Writes (filesInTurn o noted later sources) split)
  (hroot : w.files.HasDirectory [])
  (hapart : single.files.KeepsApart ((filesAtOnce o noted later sources).map (·.path)))

include hsingle hsplit hroot hapart

/-- What is no index holds the same. -/
theorem contents_of_orders {l : Location}
    (hl : ∀ directory ∈ (noted ++ later).map (·.directory),
      ¬ single.files.Reaches .reach (indexPath o.root o.extension directory)
        (indexPath o.root o.extension directory).steps l) :
    single.files.contents? l = split.files.contents? l := by
  refine contents_beside hsingle hsplit hroot (fun _ => mem_paths_filesInTurn) hapart ?_
  intro p _ hreaches
  rw [lastFor_source]
  rintro directory hdirectory rfl
  exact hl directory hdirectory hreaches

variable (hmodules : ∀ c ∈ noted ++ later, ∀ m ∈ c.directory, IsModule m)
  (hsources : ∀ directory ∈ (noted ++ later).map (·.directory),
    indexPath o.root o.extension directory ∉ sources.map (·.path))

include hmodules hsources

theorem reads_of_orders {directory : List String}
    (hdirectory : directory ∈ (noted ++ later).map (·.directory)) :
    single.files.read (indexPath o.root o.extension directory) =
        .ok (Output.bytes (indexLines o.tool (namesIn (noted ++ later) directory))) ∧
      split.files.read (indexPath o.root o.extension directory) =
        .ok (Output.bytes (indexLines o.tool
          (namesIn (lastNoted noted later directory) directory))) := by
  obtain ⟨hone, htwo⟩ := lastFor_index hmodules hsources hdirectory
  have hpath : indexPath o.root o.extension directory ∈
      (filesAtOnce o noted later sources).map (·.path) := by
    rw [filesAtOnce, List.map_append, List.mem_append, mem_paths_indexes]
    exact .inr ⟨directory, hdirectory, rfl⟩
  have hpath' := mem_paths_filesInTurn.1 hpath
  obtain ⟨l, hl, -⟩ := hsingle.exists_file hroot hpath
  obtain ⟨l', hl', -⟩ := hsplit.exists_file hroot hpath'
  refine ⟨FileSystem.read_eq_ok_iff.2 ⟨l, hl, ?_⟩, FileSystem.read_eq_ok_iff.2 ⟨l', hl', ?_⟩⟩
  · rw [contents_of_path hsingle hroot hapart hpath hl, hone]
    rfl
  · have hapart' := apart_beside hsingle hsplit hroot (fun _ => mem_paths_filesInTurn) hapart
    rw [contents_of_path hsplit hroot hapart' hpath' hl', htwo]
    rfl

/-- The outputs are the same just if no index lacks a module. -/
theorem sameOutput_of_orders_iff :
    single.SameOutput split ↔
      ∀ c ∈ noted, c.directory ∈ later.map (·.directory) → c ∈ later := by
  rw [sameOutput_iff hsingle hsplit hroot (fun _ => mem_paths_filesInTurn) hapart]
  constructor
  · intro hlast c hc hlater
    have hdirectory : c.directory ∈ (noted ++ later).map (·.directory) :=
      List.mem_map_of_mem (List.mem_append_left _ hc)
    obtain ⟨hone, htwo⟩ := lastFor_index hmodules hsources hdirectory
    have hbytes := hlast (indexPath o.root o.extension c.directory) (by
      rw [filesAtOnce, List.map_append, List.mem_append, mem_paths_indexes]
      exact .inr ⟨_, hdirectory, rfl⟩)
    rw [hone, htwo] at hbytes
    exact bytes_index_iff.1 (Option.some.inj hbytes) hlater c hc rfl
  · intro hkept p _
    by_cases hindex : ∃ directory ∈ (noted ++ later).map (·.directory),
        indexPath o.root o.extension directory = p
    · obtain ⟨directory, hdirectory, rfl⟩ := hindex
      obtain ⟨hone, htwo⟩ := lastFor_index hmodules hsources hdirectory
      rw [hone, htwo]
      refine congrArg some (bytes_index_iff.2 fun hlater c hc heq => ?_)
      exact hkept c hc (heq ▸ hlater)
    · rw [lastFor_source fun directory hdirectory hpath => hindex ⟨directory, hdirectory, hpath⟩]

end Outputs

end Rust

end SchemaGen
