import SchemaGen.Proofs.ParentDirectories
import SchemaGen.Proofs.RootExpansion

/-!
# Indexes and the files beside them

The index of a directory is written when a source below the directory has been written. So nothing
has to be made above it, and a file system lags behind itself with indexes. And where all indexes
are there already, or are only missing, they can be written again.

Results:
1. `Rust.hasAbove_indexPath`: nothing has to be made above the indexes for sources that are there.
2. `Rust.lags_of_finish`: what ending a run does to the file system.
3. `Rust.finish_behind`: when a run can end.
-/

namespace SchemaGen

open FileSystem

variable {p : Path}

theorem FileSystem.HasAbove.grows {fs fs' : FileSystem} (h : fs.HasAbove p)
    (hgrows : fs.Grows fs') : fs'.HasAbove p :=
  fun parent hparent => (h parent hparent).imp_right hgrows.isDirectory

/-- What was written is there in the end. -/
theorem Workspace.Writes.exists_file {σ : Type} {w now : Workspace σ} {files : List GeneratedFile}
    (h : w.Writes files now) (hroot : w.files.HasDirectory []) (hp : p ∈ files.map (·.path)) :
    ∃ l, now.files.Reaches .reach p p.steps l ∧ now.files.kind? l = some (.file .full) := by
  obtain ⟨placed, rfl, hwrote⟩ := h
  rw [List.map_map] at hp
  obtain ⟨e, he, rfl⟩ := List.mem_map.1 hp
  exact ⟨e.2, hwrote.reaches hroot e he, file_iff_kind.1 (hwrote.full hroot e he)⟩

namespace Rust

open ModuleFilesLemmas

/-! ## 1. Above an index -/

variable {cs : List Child} {items : List (List String × List String)}
  {w now : Workspace (List Child)} {fs : FileSystem}

theorem mem_directories {directory : List String} :
    directory ∈ ordered notBehind (cs.map (·.directory)) ↔ directory ∈ cs.map (·.directory) :=
  (ordered_spec notBehind_antisymm notBehind_trans notBehind_total _).2 directory

theorem directory_of_mem_indexes {i : List String × List String} (h : i ∈ indexes cs) :
    i.1 ∈ cs.map (·.directory) := by
  obtain ⟨directory, hdirectory, rfl⟩ := List.mem_map.1 h
  exact mem_directories.1 hdirectory

theorem isPlainName_mod {extension : String} (h : '/' ∉ extension.toList) :
    IsPlainName ("mod" ++ extension) := by
  have hmem : 'm' ∈ ("mod" ++ extension).toList := by simp
  refine ⟨fun heq => ?_, fun heq => ?_, fun heq => ?_, ?_⟩
  · simp [heq] at hmem
  · simp [heq] at hmem
  · simp [heq] at hmem
  · simpa using h

/-- Nothing has to be made above the indexes that sources need, where these are. -/
theorem hasAbove_indexPath {σ : Type} {w now : Workspace σ} {o : Output} {g : Graph}
    {files : List SchemaFile} (h : w.Writes (files.map (sourceOf o g)) now)
    (hroot : w.files.HasDirectory []) (hextension : '/' ∉ o.extension.toList)
    (hnamed : ∀ f ∈ files, f.Named) {modules : List String}
    (hmodules : modules ∈ (neededBy files).map (·.directory)) :
    now.files.HasAbove (indexPath o.root o.extension modules) := by
  rw [← mem_directories, ← indexed_eq] at hmodules
  -- The directory lies on the way to the source.
  obtain ⟨f, hf, rest, hrest⟩ := mem_indexed hmodules
  have hpath : (sourceOf o g f).path =
      rest.foldl (· / ·) (modules.foldl (· / ·) o.root) / (fileModule f ++ o.extension) := by
    show (packageModules f).foldl (· / ·) o.root / (fileModule f ++ o.extension) = _
    rw [← hrest, List.foldl_append]
  have hmem : sourceOf o g f ∈ files.map (sourceOf o g) := List.mem_map_of_mem hf
  have hfile := h.plain hroot hmem (slash_not_mem hextension (slash_not_mem_fileModule f)) hpath
  have hnames : ∀ m ∈ rest, IsPlainName m := by
    intro m hm
    refine ((hnamed f hf).isModule m ?_).isPlainName
    rw [← hrest]
    exact List.mem_append_right _ hm
  obtain ⟨l, hl, -⟩ := h.exists_file hroot (List.mem_map_of_mem hmem)
  rw [hpath] at hl
  exact hasAbove_of_reaches hnames hfile (isPlainName_mod hextension) hl

/-! ## 2. Writing indexes -/

theorem writeIndex_run (directory names : List String) (w : Workspace (List Child)) :
    (writeIndex directory names).run w =
      let path := indexPath w.output.root w.output.extension directory
      match (Disk.opening path).run w.settled with
      | (.ok l, files) =>
        (.ok (),
          { (w.opened files path l).closed with
            files := files.append l (Output.text (indexLines w.output.tool names)) })
      | (.error cause, files) => (.error (.file path cause), { w.closed with files }) := by
  rw [writeIndex, run_bind, run_get]
  exact Emit.prepare_lines_close_run _ _ w

/-- With indexes more, a file system is in front of itself. -/
theorem lags_of_indexes (hclosed : w.output.current = none) (hroot : w.files.HasDirectory [])
    (habove : ∀ i ∈ items, w.files.HasAbove (indexPath w.output.root w.output.extension i.1))
    (h : (items.forM fun i => writeIndex i.1 i.2).run w = (.ok (), now)) :
    w.files.Lags now.files := by
  induction items generalizing w with
  | nil =>
    obtain rfl := (Prod.mk.inj h).2
    exact .refl hroot
  | cons i rest ih =>
    rw [forM_run_cons, writeIndex_run, Workspace.settled_of_closed hclosed] at h
    rcases hopening : (Disk.opening (indexPath w.output.root w.output.extension i.1)).run w.files
      with ⟨(cause | l), files⟩
    · simp only [hopening] at h
      cases h
    · simp only [hopening] at h
      have hfirst := Disk.lags_of_opening hroot (habove i List.mem_cons_self) hopening
      have hnow : w.files.Lags (files.append l (Output.text (indexLines w.output.tool i.2))) := by
        have happend := hfirst.append l l "" (Output.text (indexLines w.output.tool i.2))
        rwa [FileSystem.append_empty] at happend
      refine hnow.trans (ih rfl (hnow.hasDirectory_iff.1 hroot) (fun j hj => ?_) h)
      exact hnow.hasAbove_iff.1 (habove j (List.mem_cons_of_mem _ hj))

theorem lags_of_finish (hclosed : w.output.current = none) (hroot : w.files.HasDirectory [])
    (habove : ∀ directory ∈ w.notes.map (·.directory),
      w.files.HasAbove (indexPath w.output.root w.output.extension directory))
    (h : finish.run w = (.ok (), now)) : w.files.Lags now.files := by
  rw [finish_run] at h
  have hfiles : (atEnd w).files = w.files := Workspace.settled_of_closed hclosed
  rw [← hfiles] at hroot habove ⊢
  exact lags_of_indexes (w := atEnd w) rfl hroot
    (fun _ hi => habove _ (directory_of_mem_indexes hi)) h

/-! ## 3. Writing indexes again -/

/-- Indexes that are all there in the file system in front can be written behind. -/
theorem indexes_behind (hclosed : w.output.current = none) (hlags : w.files.Lags fs)
    (hthere : ∀ i ∈ items, fs.HasFile (indexPath w.output.root w.output.extension i.1)) :
    ∃ now, (items.forM fun i => writeIndex i.1 i.2).run w = (.ok (), now) := by
  induction items generalizing w with
  | nil => exact ⟨w, rfl⟩
  | cons i rest ih =>
    obtain ⟨l, files, hopening, hfiles⟩ :=
      Disk.opening_behind hlags (hthere i List.mem_cons_self)
    rw [forM_run_cons, writeIndex_run, Workspace.settled_of_closed hclosed]
    simp only [hopening]
    refine ih rfl ?_ fun j hj => hthere j (List.mem_cons_of_mem _ hj)
    have happend := hfiles.append l l (Output.text (indexLines w.output.tool i.2)) ""
    rwa [FileSystem.append_empty] at happend

/-- A run can end if its indexes are all there in the file system in front. -/
theorem finish_behind (hclosed : w.output.current = none) (hlags : w.files.Lags fs)
    (hthere : ∀ directory ∈ w.notes.map (·.directory),
      fs.HasFile (indexPath w.output.root w.output.extension directory)) :
    ∃ now, finish.run w = (.ok (), now) := by
  rw [finish_run]
  have hfiles : (atEnd w).files = w.files := Workspace.settled_of_closed hclosed
  exact indexes_behind (w := atEnd w) rfl (hfiles ▸ hlags)
    fun _ hi => hthere _ (directory_of_mem_indexes hi)

end Rust

end SchemaGen
