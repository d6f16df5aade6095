import SchemaGen.Proofs.BoundedRuns
import SchemaGen.Proofs.LoadExact
import SchemaGen.Proofs.ModuleFiles
import SchemaGen.Proofs.References
import Mathlib.Data.List.Permutation

/-!
# Outputs that collide

Definitions are told apart only inside a file, while their outputs are placed by package and name.
So two files of one run can have the same output, and the later one replaces the earlier. This
module says exactly when it happens, for every run that succeeds.

Results:
1. `named_of_told`: how the definitions and packages of the files of a run are named.
2. `Java.distinct_iff`: for Java, outputs collide where two files have definitions of the same name
   in the same directory.
3. `Rust.indexesApart`, `Rust.collide_iff`: for Rust, outputs collide where two files are the same
   module. The indexes collide with nothing.
4. `written_distinct_iff`: when the outputs of a session are distinct.
-/

namespace SchemaGen

open EventOrderLemmas

/-! ## Definitions -/

/-- No path occurs twice, however it is written. -/
def Path.Distinct (paths : List Path) : Prop :=
  paths.Pairwise fun p q => p.same q = false

/-- The names in a file are names, and no two definitions share one. -/
structure SchemaFile.Named (f : SchemaFile) : Prop where
  nodup : f.names.Nodup
  names : ∀ name ∈ f.names, Token.IsName name.toList
  package : ∀ package, f.package? = some package → Token.IsName package.toList

/-- Both files have a definition of the same name, and its outputs have the same directory. -/
def Java.Collide (root : Path) (f f' : SchemaFile) : Prop :=
  (Java.directory root f).same (Java.directory root f') = true ∧
    ∃ name, name ∈ f.keptNames ∧ name ∈ f'.keptNames

/-- Both files have the same source. -/
def Rust.Collide (root : Path) (extension : String) (f f' : SchemaFile) : Prop :=
  (Rust.sourcePath root extension f).same (Rust.sourcePath root extension f') = true

/-- Behind the sources the indexes were written, and none of them has the path of another index or
of a source. -/
def Rust.IndexesApart (sources written : List Path) : Prop :=
  ∃ indexes, written = sources ++ indexes ∧ Path.Distinct indexes ∧
    ∀ p ∈ sources, ∀ q ∈ indexes, p.same q = false

/-! ## 1. The files of a run -/

namespace CollisionsLemmas

variable {ε τ α : Type} {t t' : τ} {x : ExceptT ε (StateM τ) α} {ε' : Type} {a : α}

theorem lift_run_eq_ok {x : Except ε α} {f : ε → ε'}
    (h : (liftM (x.mapError f) : ExceptT ε' (StateM τ) α).run t = (.ok a, t')) :
    x = .ok a ∧ t' = t := by
  cases x with
  | error e => cases h
  | ok a' =>
    cases h
    exact ⟨rfl, rfl⟩

theorem adapt_run_eq_ok {f : ε → ε'} (h : (ExceptT.adapt f x).run t = (.ok a, t')) :
    x.run t = (.ok a, t') := by
  rw [run_adapt] at h
  rcases hx : x.run t with ⟨(e | a'), t₁⟩ <;> rw [hx] at h <;> cases h
  rfl

theorem output_eq_ok {settings : Settings} {extension : String} {fs fs' : FileSystem} {o : Output}
    (h : (settings.output extension).run fs = (.ok o, fs')) :
    o = .new settings.outDir (settings.fileExt.getD extension) settings.tool := by
  unfold Settings.output at h
  obtain ⟨_, fs₁, -, h⟩ := run_bind_eq_ok h
  obtain ⟨fs₂, fs₃, -, h⟩ := run_bind_eq_ok h
  split at h
  · cases h
  · cases h
    rfl
  · cases h

end CollisionsLemmas

open CollisionsLemmas

variable {σ : Type} {plan : Plan σ} {s : Session σ} {f : SchemaFile} {settings : Settings}
  {dir : Path} {notes : σ} {fs fs' : FileSystem}

/-- The parts of a session that has started. -/
theorem Session.start_ok {target : Target σ} {extension : String}
    (h : (Session.start settings dir target extension notes).run fs = (.ok (plan, s), fs')) :
    ∃ catalog output skip, Catalog.ofRoot fs dir = .ok catalog ∧
      (settings.output extension).run fs = (.ok output, fs') ∧
      plan = ⟨target, skip, settings.schemaExt⟩ ∧
      s = ⟨catalog, ⟨fs', output, notes⟩, [], .zero⟩ := by
  unfold Session.start at h
  obtain ⟨_, _, hget, h⟩ := run_bind_eq_ok h
  cases hget
  obtain ⟨catalog, _, hcatalog, h⟩ := run_bind_eq_ok h
  obtain ⟨output, _, houtput, h⟩ := run_bind_eq_ok h
  obtain ⟨skip, _, hskip, h⟩ := run_bind_eq_ok h
  obtain ⟨_, _, hget, h⟩ := run_bind_eq_ok h
  cases hget
  cases h
  obtain ⟨hcatalog, rfl⟩ := lift_run_eq_ok hcatalog
  obtain ⟨-, rfl⟩ := lift_run_eq_ok hskip
  exact ⟨catalog, output, skip, hcatalog, adapt_run_eq_ok houtput, rfl, rfl⟩

/-- What a session that has started is like. -/
theorem Session.of_start {target : Target σ} {extension : String}
    (h : (Session.start settings dir target extension notes).run fs = (.ok (plan, s), fs')) :
    plan.target = target ∧ s.handled = [] ∧ s.workspace.notes = notes ∧ s.catalog.IsGrown [] ∧
      s.workspace.output =
        .new settings.outDir (settings.fileExt.getD extension) settings.tool := by
  obtain ⟨catalog, output, skip, hcatalog, houtput, rfl, rfl⟩ := Session.start_ok h
  exact ⟨rfl, rfl, rfl, (Catalog.grown_of_ofRoot hcatalog .start).1, output_eq_ok houtput⟩

theorem Session.closed_of_start {target : Target σ} {extension : String}
    (h : (Session.start settings dir target extension notes).run fs = (.ok (plan, s), fs')) :
    s.workspace.output.current = none := by
  obtain ⟨-, -, -, -, houtput⟩ := Session.of_start h
  rw [houtput]
  rfl

namespace CollisionsLemmas

variable {σ : Type}

theorem mem_of_mem_todo {refuses : SchemaFile → Bool} {handled : List Path}
    {files : List SchemaFile} {f : SchemaFile} (h : f ∈ todo refuses handled files) :
    f ∈ files := by
  induction files generalizing handled with
  | nil => cases h
  | cons g rest ih =>
    rw [todo] at h
    split at h
    · exact List.mem_cons_of_mem _ (ih h)
    split at h
    · exact List.mem_cons_of_mem _ (ih h)
    · rcases List.mem_cons.1 h with rfl | hrest
      · exact List.mem_cons_self
      · exact List.mem_cons_of_mem _ (ih hrest)

/-- The files told were in the graph of a catalog that has grown. -/
theorem grown_of_told {plan : Plan σ} {roots : List Path} {s : Session σ} {f : SchemaFile}
    (hs : s.catalog.IsGrown []) (h : f ∈ s.told plan roots) :
    ∃ seen root g i, Grown seen root g ∧ g.file? i = some f := by
  have hkeeps : plan.Keeps (fun c => ∃ seen, c.IsGrown seen) fun _ => True := by
    refine ⟨fun fs p c hc => ?_, fun _ _ _ _ _ => trivial⟩
    obtain ⟨seen, hc⟩ := hc
    exact ⟨fs :: seen, (hc.load fs p).1⟩
  obtain ⟨-, hvisits⟩ := hkeeps.run roots ⟨⟨[], hs⟩, trivial⟩
  rw [Session.told, ← todo_nil] at h
  obtain ⟨v, hv, hf⟩ := List.mem_flatMap.1 (mem_of_mem_todo h)
  obtain ⟨⟨seen, hgrown⟩, i, hfile⟩ := hvisits v hv
  rcases List.mem_append.1 hf with hdep | hself
  · obtain ⟨j, -, hj⟩ := List.mem_filterMap.1 hdep
    exact ⟨seen, _, _, j, hgrown.graph, hj⟩
  · obtain rfl := List.mem_singleton.1 hself
    exact ⟨seen, _, _, i, hgrown.graph, hfile⟩

end CollisionsLemmas

/-- The package that a printable document states is a name without a dot at its front. -/
theorem Document.Printable.package {d : Document} (h : d.Printable) {package : String}
    (hpackage : d.package? = some package) :
    Token.IsName package.toList ∧ package.toList.head? ≠ some '.' := by
  obtain ⟨header, hlast, rfl⟩ := Option.map_eq_some_iff.1 hpackage
  obtain ⟨hmem, hkind⟩ := List.mem_filter.1 (List.mem_of_getLast? hlast)
  have hprintable := h.headers header hmem
  unfold Header.Printable at hprintable
  rw [of_decide_eq_true hkind] at hprintable
  exact hprintable.2

namespace BuiltFrom

variable {seen : List FileSystem} {root : Path} {g : Graph} {l : Location} {d : Document}
  {f : SchemaFile} (h : BuiltFrom seen root g l d f)

include h

theorem printable : d.Printable := by
  obtain ⟨fs, -, hholds⟩ := h.holds
  exact ReferencesLemmas.printable_of_holds hholds

theorem package {package : String} (hpackage : f.package? = some package) :
    Token.IsName package.toList ∧ package.toList.head? ≠ some '.' := by
  obtain ⟨⟨fs, -, hholds⟩, ⟨imported, hbuild⟩, -⟩ := h
  obtain ⟨-, hstates, -⟩ := SchemaFile.fill_effect hbuild
  rw [hstates, Document.package?_addHeaders hholds.named, Option.or_eq_some_iff] at hpackage
  rcases hpackage with hstated | ⟨-, hnone⟩
  · exact (ReferencesLemmas.printable_of_holds hholds).package hstated
  · cases hnone

end BuiltFrom

theorem Grown.named {seen : List FileSystem} {root : Path} {g : Graph} (hg : Grown seen root g)
    {i : FileId} (hf : g.file? i = some f) : f.Named := by
  obtain ⟨g', l, d, hfrom, -, -⟩ := hg.origin hf
  obtain ⟨imported, hbuild⟩ := hfrom.build
  obtain ⟨-, -, hnames⟩ := SchemaFile.fill_effect hbuild
  obtain ⟨_, _, -, -, hreflects⟩ := hg.contents hf
  refine ⟨hreflects.nodup, fun name hname => ?_, fun package hsome => (hfrom.package hsome).1⟩
  have hdeclared : name ∈ d.names := by
    rcases (hnames name).1 hname with hold | hdeclared
    · cases hold
    · exact hdeclared
  rcases List.mem_append.1 hdeclared with hmem | hmem
  · obtain ⟨m, hm, rfl⟩ := List.mem_map.1 hmem
    exact (hfrom.printable.messages m hm).described.name
  · obtain ⟨e, he, rfl⟩ := List.mem_map.1 hmem
    exact (hfrom.printable.enums e he).described.name

theorem named_of_told {roots : List Path} (hs : s.catalog.IsGrown []) (h : f ∈ s.told plan roots) :
    f.Named := by
  obtain ⟨seen, root, g, i, hgrown, hf⟩ := grown_of_told hs h
  exact hgrown.named hf

namespace CollisionsLemmas

theorem mem_of_mem_split {sep c : Char} {cs piece : List Char} (h : piece ∈ Text.split sep cs)
    (hc : c ∈ piece) : c ∈ cs := by
  induction cs generalizing piece with
  | nil =>
    obtain rfl := List.mem_singleton.1 h
    exact hc
  | cons d cs ih =>
    rw [Text.split] at h
    split at h
    · rcases List.mem_cons.1 h with rfl | hrest
      · cases hc
      · exact List.mem_cons_of_mem _ (ih hrest hc)
    · split at h
      · obtain rfl := List.mem_singleton.1 h
        rw [List.mem_singleton.1 hc]
        exact List.mem_cons_self
      · next first others hsplit =>
        rw [hsplit] at ih
        rcases List.mem_cons.1 h with rfl | hrest
        · rcases List.mem_cons.1 hc with rfl | hc
          · exact List.mem_cons_self
          · exact List.mem_cons_of_mem _ (ih List.mem_cons_self hc)
        · exact List.mem_cons_of_mem _ (ih (List.mem_cons_of_mem _ hrest) hc)

theorem keptNames_sublist (f : SchemaFile) : f.keptNames.Sublist f.names :=
  (List.filter_sublist.map _).append (List.filter_sublist.map _)

variable {p : Path}

theorem fileName_of_path {name : String} (h : p.fileName? = some name) :
    name ≠ "" ∧ '/' ∉ name.toList := by
  have hlast : p.components.getLast? = some (.name name) := by
    unfold Path.fileName? at h
    split at h
    · next last hlast =>
      cases h
      exact hlast
    · cases h
  have hmem : name ∈ p.names := by
    rw [Path.names_eq_filterMap]
    exact List.mem_filterMap.2 ⟨_, List.mem_of_getLast? hlast, rfl⟩
  exact LocationLemmas.mem_words (List.mem_filter.1 hmem).1

/-- The stem of a file name is not empty, since a leading dot starts no extension. -/
theorem stem_of_path {stem : String} (h : p.stem? = some stem) : stem ≠ "" ∧ '/' ∉ stem.toList := by
  obtain ⟨name, hname, hstem⟩ := Option.map_eq_some_iff.1 h
  obtain ⟨hne, hslash⟩ := fileName_of_path hname
  split at hstem
  · exact hstem ▸ ⟨hne, hslash⟩
  · exact hstem ▸ ⟨hne, hslash⟩
  · next front _ hnot hsplit =>
    obtain ⟨htext, -⟩ := Text.splitLast?_eq_some_iff.1 hsplit
    rw [← hstem]
    refine ⟨hnot, fun hmem => hslash ?_⟩
    rw [htext]
    exact List.mem_append_left _ hmem

end CollisionsLemmas

theorem SchemaFile.Named.isStem (h : f.Named) {name : String} (hname : name ∈ f.keptNames) :
    IsStem name :=
  isStem_of_isName (h.names name ((keptNames_sublist f).mem hname))

theorem SchemaFile.Named.isModule (h : f.Named) : ∀ m ∈ Rust.packageModules f, Rust.IsModule m := by
  intro m hm
  obtain ⟨word, hword, rfl⟩ := List.mem_map.1 hm
  obtain ⟨hne, -⟩ := LocationLemmas.mem_words hword
  refine Rust.isModule_moduleName hne fun hslash => ?_
  obtain ⟨piece, hpiece, rfl⟩ := List.mem_map.1 hword
  rw [String.toList_ofList] at hslash
  have hmem := mem_of_mem_split (List.mem_filter.1 hpiece).1 hslash
  cases hpackage : f.package? with
  | none =>
    rw [hpackage] at hmem
    cases hmem
  | some package =>
    rw [hpackage] at hmem
    exact (isStem_of_isName (h.package package hpackage)).2.2 hmem

theorem Rust.isModule_of_stem (h : f.file.stem?.isSome) : IsModule (fileModule f) := by
  obtain ⟨stem, hstem⟩ := Option.isSome_iff_exists.1 h
  obtain ⟨hne, hslash⟩ := stem_of_path hstem
  rw [fileModule, hstem]
  exact isModule_moduleName hne hslash

theorem Rust.isModule_fileModule (f : SchemaFile) :
    IsModule (fileModule f) ∨ fileModule f = "" := by
  cases hstem : f.file.stem? with
  | none =>
    rw [fileModule, hstem]
    exact .inr (by decide)
  | some stem => exact .inl (isModule_of_stem (by rw [hstem]; rfl))

/-! ## 2. Java -/

namespace Java

variable {root : Path} {extension : String}

theorem distinct_iff {files : List SchemaFile} (h : ∀ f ∈ files, f.Named) :
    Path.Distinct (files.flatMap fun f => f.keptNames.map (sourcePath root extension f)) ↔
      files.Pairwise fun f f' => ¬ Collide root f f' := by
  have hself : ∀ f ∈ files, Path.Distinct (f.keptNames.map (sourcePath root extension f)) := by
    intro f hf
    refine List.pairwise_map.2 ?_
    have hnodup := (h f hf).nodup.sublist (keptNames_sublist f)
    refine hnodup.imp_of_mem fun {name name'} hname hname' hne => ?_
    refine Bool.eq_false_iff.2 fun hsame => hne ?_
    exact ((Path.same_file_iff ((h f hf).isStem hname) ((h f hf).isStem hname') _).1 hsame).2
  refine (List.pairwise_flatMap.trans (and_iff_right hself)).trans ?_
  refine List.Pairwise.iff_of_mem fun {f f'} hf hf' => ?_
  constructor
  · intro hapart ⟨hdirectory, name, hname, hname'⟩
    have hfalse := hapart _ (List.mem_map_of_mem hname) _ (List.mem_map_of_mem hname')
    have hstem := (h f hf).isStem hname
    rw [sourcePath, sourcePath, (Path.same_file_iff hstem hstem _).2 ⟨hdirectory, rfl⟩] at hfalse
    cases hfalse
  · intro hnot p hp q hq
    obtain ⟨name, hname, rfl⟩ := List.mem_map.1 hp
    obtain ⟨name', hname', rfl⟩ := List.mem_map.1 hq
    refine Bool.eq_false_iff.2 fun hsame => hnot ?_
    obtain ⟨hdirectory, rfl⟩ :=
      (Path.same_file_iff ((h f hf).isStem hname) ((h f' hf').isStem hname') _).1 hsame
    exact ⟨hdirectory, name, hname, hname'⟩

end Java

/-! ## 3. Rust -/

namespace Rust

variable {root : Path} {extension : String} {files : List SchemaFile}

theorem isModule_of_indexed (h : ∀ f ∈ files, f.Named) {directory : List String}
    (hdirectory : directory ∈ indexed files) : ∀ m ∈ directory, IsModule m := by
  intro m hm
  obtain ⟨f, hf, hfront⟩ := mem_indexed hdirectory
  exact (h f hf).isModule m (hfront.subset hm)

theorem indexesApart (root : Path) (extension : String) (h : ∀ f ∈ files, f.Named) :
    IndexesApart (files.map (sourcePath root extension))
      (files.map (sourcePath root extension) ++
        (indexed files).map (indexPath root extension)) := by
  refine ⟨_, rfl, ?_, fun p hp q hq => ?_⟩
  · refine List.pairwise_map.2 ((nodup_indexed files).imp_of_mem fun {d d'} hd hd' hne => ?_)
    refine Bool.eq_false_iff.2 fun hsame => hne ?_
    exact (same_indexPath_iff (isModule_of_indexed h hd) (isModule_of_indexed h hd')).1 hsame
  · obtain ⟨f, hf, rfl⟩ := List.mem_map.1 hp
    obtain ⟨d, hd, rfl⟩ := List.mem_map.1 hq
    exact not_same_indexPath (h f hf).isModule (isModule_of_indexed h hd) (isModule_fileModule f)

theorem IndexesApart.distinct_iff {written : List Path}
    (h : IndexesApart (files.map (sourcePath root extension)) written) :
    Path.Distinct written ↔ files.Pairwise fun f f' => ¬ Collide root extension f f' := by
  obtain ⟨indexes, rfl, hindexes, hapart⟩ := h
  rw [Path.Distinct, List.pairwise_append, List.pairwise_map]
  simp only [Collide, Bool.not_eq_true]
  exact ⟨fun hall => hall.1, fun hsources => ⟨hsources, hindexes, hapart⟩⟩

/-- Where files have names, they collide just if they are the same module. -/
theorem collide_iff {f f' : SchemaFile} (hf : f.Named) (hf' : f'.Named)
    (hstem : f.file.stem?.isSome) (hstem' : f'.file.stem?.isSome) :
    Collide root extension f f' ↔
      packageModules f = packageModules f' ∧ fileModule f = fileModule f' :=
  same_sourcePath_iff hf.isModule hf'.isModule (isModule_of_stem hstem) (isModule_of_stem hstem')

end Rust

/-! ## 4. Sessions -/

/-- When no path is written twice in a run that succeeds. For Java this is so if no two files have
definitions of the same name in the same directory. For Rust it is so if no two files have the same
source, which is that they are the same module; the indexes do not matter, as they have paths of
their own. -/
theorem written_distinct_iff (settings : Settings) (dir : Path) (fs : FileSystem)
    (roots : List Path) :
    (∀ plan s fs' stats,
      (Session.start settings dir Java.target Java.extension ()).run fs = (.ok (plan, s), fs') →
      (Session.run plan roots s).1 = .ok stats →
      (Path.Distinct (Session.run plan roots s).2.workspace.output.written ↔
        (s.told plan roots).Pairwise fun f f' => ¬ Java.Collide settings.outDir f f')) ∧
    ∀ plan s fs' stats,
      (Session.start settings dir Rust.target Rust.extension []).run fs = (.ok (plan, s), fs') →
      (Session.run plan roots s).1 = .ok stats →
      let extension := settings.fileExt.getD Rust.extension
      Rust.IndexesApart ((s.told plan roots).map (Rust.sourcePath settings.outDir extension))
          (Session.run plan roots s).2.workspace.output.written ∧
        (Path.Distinct (Session.run plan roots s).2.workspace.output.written ↔
          (s.told plan roots).Pairwise fun f f' =>
            ¬ Rust.Collide settings.outDir extension f f') ∧
        ∀ f ∈ s.told plan roots, ∀ f' ∈ s.told plan roots,
          f.file.stem?.isSome → f'.file.stem?.isSome →
            (Rust.Collide settings.outDir extension f f' ↔
              Rust.packageModules f = Rust.packageModules f' ∧
                Rust.fileModule f = Rust.fileModule f') := by
  refine ⟨fun plan s fs' stats hstart hrun => ?_, fun plan s fs' stats hstart hrun => ?_⟩
  · obtain ⟨hplan, hfresh, -, hgrown, houtput⟩ := Session.of_start hstart
    rw [Java.written_of_run hplan hfresh hrun, houtput]
    exact Java.distinct_iff fun f hf => named_of_told hgrown hf
  · obtain ⟨hplan, hfresh, hnotes, hgrown, houtput⟩ := Session.of_start hstart
    have hnamed : ∀ f ∈ s.told plan roots, f.Named := fun f hf => named_of_told hgrown hf
    intro extension
    have hwritten : (Session.run plan roots s).2.workspace.output.written =
        (s.told plan roots).map (Rust.sourcePath settings.outDir extension) ++
          (Rust.indexed (s.told plan roots)).map (Rust.indexPath settings.outDir extension) := by
      rw [Rust.written_of_run hplan hfresh hnotes hrun, houtput, Rust.indexed, List.map_map]
      rfl
    have hapart := Rust.indexesApart settings.outDir extension hnamed
    rw [← hwritten] at hapart
    refine ⟨hapart, hapart.distinct_iff, fun f hf f' hf' hstem hstem' => ?_⟩
    exact Rust.collide_iff (hnamed f hf) (hnamed f' hf') hstem hstem'

/-! ### Two files with the same outputs -/

theorem Path.not_distinct_twice (p : Path) (paths : List Path) :
    ¬ Path.Distinct (p :: p :: paths) := by
  intro h
  have hsame : p.same p = false := (List.pairwise_cons.1 h).1 p List.mem_cons_self
  simp [Path.same] at hsame

/-- A file system with schema files in `/s`. -/
def schemaSystem (entries : List (String × Node)) : FileSystem :=
  ⟨.directory .full [("s", .directory .full entries)], []⟩

/-- The file system with an empty place for outputs. -/
def schemaSystemWithOutput (entries : List (String × Node)) : FileSystem :=
  ⟨.directory .full [("s", .directory .full entries), ("o", .directory .full [])], []⟩

/-- The settings, with the place for outputs. -/
def twinSettings : Settings :=
  { Settings.default with outDir := ⟨"/o"⟩ }

section Start

variable {σ : Type} (target : Target σ) (extension : String) (notes : σ)

/-- The plan of a session for schema files. -/
def twinPlan : Plan σ :=
  ⟨target, ⟨[]⟩, "proto"⟩

/-- A session for schema files at its start. -/
def schemaSession (entries : List (String × Node)) : Session σ where
  catalog := ⟨⟨"/s"⟩, .empty, [], []⟩
  workspace := ⟨schemaSystemWithOutput entries, .new ⟨"/o"⟩ extension "pbgen", notes⟩
  handled := []
  stats := .zero

theorem output_beside (skip : List String) (fileExt : Option String)
    (entries : List (String × Node)) :
    (Settings.output { twinSettings with skip, fileExt } extension).run (schemaSystem entries) =
      (.ok (.new ⟨"/o"⟩ (fileExt.getD extension) "pbgen"), schemaSystemWithOutput entries) := by
  have hmade : (Disk.makeDirectories ⟨"/o"⟩).run (schemaSystem entries) =
      (.ok (), schemaSystemWithOutput entries) := rfl
  have hfind : (schemaSystemWithOutput entries).find ⟨"/o"⟩ = .ok (.directory .full []) := rfl
  simp only [Settings.output, twinSettings, run_bind, run_adapt, hmade, Except.mapError, run_get,
    hfind]
  rfl

/-- A session starts with nothing loaded, and with a new place for outputs beside the schema
files. -/
theorem start_beside {patterns : List String} {skip : SkipList}
    (hskip : SkipList.ofTexts .usual patterns = .ok skip) (fileExt : Option String)
    (entries : List (String × Node)) :
    (Session.start { twinSettings with skip := patterns, fileExt } ⟨"/s"⟩ target extension
        notes).run (schemaSystem entries) =
      (.ok ({ twinPlan target with skip }, schemaSession (fileExt.getD extension) notes entries),
        schemaSystemWithOutput entries) := by
  have hroot : Catalog.ofRoot (schemaSystem entries) ⟨"/s"⟩ = .ok ⟨⟨"/s"⟩, .empty, [], []⟩ := rfl
  simp only [Session.start, run_bind, run_get, run_ofExcept, run_adapt, Settings.skipList, hroot,
    hskip, Except.mapError, output_beside]
  rfl

theorem start_schemas (entries : List (String × Node)) :
    (Session.start twinSettings ⟨"/s"⟩ target extension notes).run (schemaSystem entries) =
      (.ok (twinPlan target, schemaSession extension notes entries),
        schemaSystemWithOutput entries) :=
  start_beside target extension notes rfl none entries

end Start

/-- Two files of the same package and the same stem, each with a message of the same name. One
imports the other. -/
def twins : List (String × Node) :=
  [("a", .text "import \"x/a\"; package p; message M \x7b \x7d"),
    ("x", .directory .full [("a", .text "package p; message M \x7b \x7d")])]

/-- The message of the second file replaces the message of the first. -/
theorem javaTwins :
    (Session.run (twinPlan Java.target) [⟨"/s/a"⟩] (schemaSession Java.extension () twins)).1 =
        .ok ⟨2, 2, 0, 0⟩ ∧
      (Session.run (twinPlan Java.target) [⟨"/s/a"⟩]
        (schemaSession Java.extension () twins)).2.workspace.output.written =
          [⟨"/o/p/M.java"⟩, ⟨"/o/p/M.java"⟩] := by
  have hruns : ∃ r ∈ (schemaSession Java.extension () twins).runWithin (twinPlan Java.target) 2
      Java.target.finish [⟨"/s/a"⟩], r.2.2.1 = .ok ⟨2, 2, 0, 0⟩ ∧
        r.2.2.2.workspace.output.written = [⟨"/o/p/M.java"⟩, ⟨"/o/p/M.java"⟩] := by
    decide +kernel
  obtain ⟨_, hwithin, h⟩ := hruns
  rwa [(Session.run_of_within hwithin fun _ _ => rfl).1]

/-- The source of the second file replaces that of the first. -/
theorem rustTwins :
    (Session.run (twinPlan Rust.target) [⟨"/s/a"⟩] (schemaSession Rust.extension [] twins)).1 =
        .ok ⟨2, 2, 0, 0⟩ ∧
      (Session.run (twinPlan Rust.target) [⟨"/s/a"⟩]
        (schemaSession Rust.extension [] twins)).2.workspace.output.written =
          [⟨"/o/p/a.rs"⟩, ⟨"/o/p/a.rs"⟩, ⟨"/o/mod.rs"⟩, ⟨"/o/p/mod.rs"⟩] := by
  have hindexes : Rust.indexes [⟨[], "p"⟩, ⟨["p"], "a"⟩, ⟨[], "p"⟩, ⟨["p"], "a"⟩] =
      [([], ["p"]), (["p"], ["a"])] := by
    cbv
  have hruns : ∃ r ∈ (schemaSession Rust.extension [] twins).runWithin (twinPlan Rust.target) 2
      (Rust.finishWith [([], ["p"]), (["p"], ["a"])]) [⟨"/s/a"⟩],
        r.2.1 = [⟨[], "p"⟩, ⟨["p"], "a"⟩, ⟨[], "p"⟩, ⟨["p"], "a"⟩] ∧
        r.2.2.1 = .ok ⟨2, 2, 0, 0⟩ ∧ r.2.2.2.workspace.output.written =
          [⟨"/o/p/a.rs"⟩, ⟨"/o/p/a.rs"⟩, ⟨"/o/mod.rs"⟩, ⟨"/o/p/mod.rs"⟩] := by
    decide +kernel
  obtain ⟨⟨_, _, _⟩, hwithin, rfl, h⟩ := hruns
  rwa [(Session.run_of_within hwithin (Rust.finish_eq_finishWith hindexes)).1]

/-- A run can succeed and yet write a path twice. -/
theorem twins_overwritten :
    (∃ plan s fs' stats,
      (Session.start twinSettings ⟨"/s"⟩ Java.target Java.extension ()).run (schemaSystem twins) =
        (.ok (plan, s), fs') ∧
      (Session.run plan [⟨"/s/a"⟩] s).1 = .ok stats ∧
      ¬ Path.Distinct (Session.run plan [⟨"/s/a"⟩] s).2.workspace.output.written) ∧
    ∃ plan s fs' stats,
      (Session.start twinSettings ⟨"/s"⟩ Rust.target Rust.extension []).run (schemaSystem twins) =
        (.ok (plan, s), fs') ∧
      (Session.run plan [⟨"/s/a"⟩] s).1 = .ok stats ∧
      ¬ Path.Distinct (Session.run plan [⟨"/s/a"⟩] s).2.workspace.output.written := by
  refine ⟨⟨_, _, _, _, start_schemas _ _ _ twins, javaTwins.1, ?_⟩,
    ⟨_, _, _, _, start_schemas _ _ _ twins, rustTwins.1, ?_⟩⟩
  · rw [javaTwins.2]
    exact Path.not_distinct_twice _ _
  · rw [rustTwins.2]
    exact Path.not_distinct_twice _ _

/-- That two of the files collide follows from the paths written. -/
theorem twins_collide :
    ((Session.start twinSettings ⟨"/s"⟩ Java.target Java.extension ()).run (schemaSystem twins) =
        (.ok (twinPlan Java.target, schemaSession Java.extension () twins),
          schemaSystemWithOutput twins) ∧
      (Session.run (twinPlan Java.target) [⟨"/s/a"⟩] (schemaSession Java.extension () twins)).1 =
        .ok ⟨2, 2, 0, 0⟩ ∧
      ¬ ((schemaSession Java.extension () twins).told (twinPlan Java.target) [⟨"/s/a"⟩]).Pairwise
        fun f f' => ¬ Java.Collide ⟨"/o"⟩ f f') ∧
    (Session.start twinSettings ⟨"/s"⟩ Rust.target Rust.extension []).run (schemaSystem twins) =
        (.ok (twinPlan Rust.target, schemaSession Rust.extension [] twins),
          schemaSystemWithOutput twins) ∧
      (Session.run (twinPlan Rust.target) [⟨"/s/a"⟩] (schemaSession Rust.extension [] twins)).1 =
        .ok ⟨2, 2, 0, 0⟩ ∧
      ¬ ((schemaSession Rust.extension [] twins).told (twinPlan Rust.target) [⟨"/s/a"⟩]).Pairwise
        fun f f' => ¬ Rust.Collide ⟨"/o"⟩ ".rs" f f' := by
  obtain ⟨hjava, hrust⟩ := written_distinct_iff twinSettings ⟨"/s"⟩ (schemaSystem twins) [⟨"/s/a"⟩]
  refine ⟨⟨start_schemas _ _ _ twins, javaTwins.1, ?_⟩, start_schemas _ _ _ twins, rustTwins.1, ?_⟩
  · intro hapart
    have hdistinct := (hjava _ _ _ _ (start_schemas _ _ _ twins) javaTwins.1).2 hapart
    rw [javaTwins.2] at hdistinct
    exact Path.not_distinct_twice _ _ hdistinct
  · intro hapart
    have hdistinct := (hrust _ _ _ _ (start_schemas _ _ _ twins) rustTwins.1).2.1.2 hapart
    rw [rustTwins.2] at hdistinct
    exact Path.not_distinct_twice _ _ hdistinct

end SchemaGen
