import SchemaGen.Proofs.LaggingRuns
import SchemaGen.Proofs.WriteOrder
import Mathlib.Data.List.Dedup
import Mathlib.Data.List.Pairwise

/-!
# Runs in two parts

A session can go through its roots in one run or in two. What was loaded, handled and counted is
carried over, so the only difference is that its target ends twice.

For Java this is no difference: when all roots have been taken up, no file is open, and ending a run
does nothing else than closing it. For Rust the indexes of modules are written at the end, and the
second run knows only the modules that it has added. An index of a directory that both runs add
modules to is written again then, without the modules of the first run.

If the two runs succeed, so does the one run. It lags behind them: what it lacks are the indexes
that the first one of them ended with, and the two runs have shown that these can be written.

Results:
1. `Session.run_append`: two runs, if ending the first one does nothing.
2. `Rust.run_at_once`: one run succeeds if two runs do.
3. `outputs_of_split_run`: what one run and two runs have written.
-/

namespace SchemaGen

open EventOrderLemmas

variable {σ : Type}

/-! ## Definitions -/

/-- A run over `first` and one over `second` after it succeed. What the second one reads is what
could be read when `first` had been taken up, different paths that were written to lead to different
places, and the extension of files has no slash. -/
structure Session.SplitsCleanly (plan : Plan σ) (first second : List Path) (s : Session σ)
    (stats : Stats) : Prop where
  plain : '/' ∉ s.workspace.output.extension.toList
  ok : ∃ earlier, (Session.run plan first s).1 = .ok earlier
  split : (Session.run plan second (Session.run plan first s).2).1 = .ok stats
  reads : (Session.run plan first s).2.ReadsLike plan (s.walked plan first).workspace.files second
  apart : (Session.run plan second (Session.run plan first s).2).2.workspace.files.KeepsApart
    (Session.run plan second (Session.run plan first s).2).2.workspace.output.written

/-! ## 1. Targets that end without a change -/

variable {plan : Plan σ} {s : Session σ} {roots : List Path}

/-- A run over two lists of roots goes on where it has got to with the first one. -/
theorem Session.run_append_roots {first : List Path} {after : Session σ}
    (hroots : (first.forM (Run.root plan)).run s = (.ok (), after)) (second : List Path) :
    Session.run plan (first ++ second) s = Session.run plan second after := by
  unfold Session.run
  rw [forM_run_append, hroots]

/-- When a run ends, only the workspace changes. -/
theorem Session.kept_at_end {stats : Stats} (h : (Session.run plan roots s).1 = .ok stats) :
    (s.walked plan roots).catalog = (Session.run plan roots s).2.catalog ∧
      (s.walked plan roots).handled = (Session.run plan roots s).2.handled ∧
      (s.walked plan roots).stats = (Session.run plan roots s).2.stats := by
  rw [session_run (Session.walked_of_run h).1]
  exact ⟨rfl, rfl, rfl⟩

/-- Two runs are one if ending the first one does nothing. -/
theorem Session.run_append {first : List Path} {stats : Stats}
    (hrun : (Session.run plan first s).1 = .ok stats)
    (hfinish : plan.target.finish.run (s.walked plan first).workspace =
      (.ok (), (s.walked plan first).workspace)) (second : List Path) :
    Session.run plan second (Session.run plan first s).2 =
      Session.run plan (first ++ second) s := by
  have hroots := (Session.walked_of_run hrun).1
  have hfirst : (Session.run plan first s).2 = s.walked plan first := by
    rw [session_run hroots, hfinish]
  rw [Session.run_append_roots hroots, hfirst]

/-! ## 2. Two runs and one -/

/-- The catalog of a session goes on remembering what it has loaded. -/
theorem Session.remembers_walked (hs : s.catalog.IsOrderly) (hknown : s.catalog.Remembers) :
    (s.walked plan roots).catalog.Remembers := by
  have hkeeps : plan.Keeps (fun c => c.IsOrderly ∧ c.Remembers) fun _ => True :=
    ⟨fun fs p c hc => ⟨hc.1.load fs p, hc.2.load hc.1 fs p⟩, fun _ _ _ _ _ => trivial⟩
  have hhas : s.Has (fun c => c.IsOrderly ∧ c.Remembers) fun _ => True := ⟨⟨hs, hknown⟩, trivial⟩
  exact (hkeeps.run roots hhas).1.1.2

theorem Session.named_of_emitted {units : Output → Graph → SchemaFile → List GeneratedFile}
    (h : plan.target.Generates units) (hs : s.catalog.IsOrderly)
    (hroots : (roots.forM (Run.root plan)).run s = (.ok (), s.walked plan roots)) :
    ∀ f ∈ s.emitted plan roots, f.Named := by
  intro f hf
  have hmem := Session.mem_graph_of_visited h hs hroots (CollisionsLemmas.mem_of_mem_todo hf)
  obtain ⟨i, hi⟩ := List.getElem?_of_mem hmem
  have horderly : (s.walked plan roots).catalog.IsOrderly := (Session.orderly_run hs).1
  obtain ⟨seen, hgrown⟩ := horderly.grown
  exact hgrown.graph.named hi

namespace Rust

/-- What a run of a session for Rust writes, first for the files that it tells its target about and
then at its end. -/
theorem writes_emitted {plan : Plan (List Child)} (hplan : plan.target = target)
    {roots : List Path} {s : Session (List Child)} {stats : Stats}
    (hclosed : s.workspace.output.current = none) (h : (Session.run plan roots s).1 = .ok stats) :
    let o := s.workspace.output.blank
    s.workspace.Writes ((s.emitted plan roots).map (sourceOf o (s.walked plan roots).catalog.graph))
        (s.walked plan roots).workspace ∧
      (s.walked plan roots).workspace.notes =
        s.workspace.notes ++ neededBy (s.emitted plan roots) ∧
      (s.walked plan roots).workspace.Writes
        ((indexes (s.workspace.notes ++ neededBy (s.emitted plan roots))).map (indexOf o))
        (Session.run plan roots s).2.workspace ∧
      (s.walked plan roots).workspace.output.current = none := by
  intro o
  obtain ⟨hroots, hfinish, -⟩ := Session.walked_of_run h
  have hgenerates : plan.target.Generates fun o g f => [sourceOf o g f] := hplan ▸ generates
  have hadvance := (Session.advances hgenerates hroots).1
  have hsources := hadvance.writes hclosed _ List.prefix_rfl
  have hnotes := notes_of_emitted hplan hroots
  rw [hplan] at hfinish
  have hindexes := writes_finish (hadvance.closes hclosed) hfinish
  rw [hnotes, hsources.blank] at hindexes
  rw [List.map_eq_flatMap]
  exact ⟨hsources, hnotes, hindexes, hadvance.closes hclosed⟩

/-- A session between runs: no file is open, and all modules noted down have been declared. -/
structure Rests (s : Session (List Child)) : Prop where
  tidy : s.workspace.files.IsTidy
  orderly : s.catalog.IsOrderly
  remembers : s.catalog.Remembers
  closed : s.workspace.output.current = none
  notes : s.workspace.notes = []

theorem rests_of_start {settings : Settings} {dir : Path} {fs fs' : FileSystem}
    {plan : Plan (List Child)} {s : Session (List Child)} (tidy : fs.IsTidy)
    (h : (Session.start settings dir target extension []).run fs = (.ok (plan, s), fs')) :
    Rests s := by
  obtain ⟨-, -, hnotes, -⟩ := Session.of_start h
  obtain ⟨rfl, hchanges, -⟩ := Session.files_of_start h
  have hcatalog := Session.catalog_of_start h
  exact ⟨hchanges.tidy tidy, Catalog.isOrderly_of_ofRoot hcatalog,
    Catalog.remembers_of_ofRoot hcatalog, Session.closed_of_start h, hnotes⟩

section Ends

variable {plan : Plan (List Child)} (hplan : plan.target = target) {roots : List Path}
  {s : Session (List Child)} (hs : Rests s) {stats : Stats}
  (h : (Session.run plan roots s).1 = .ok stats)

include hplan hs h

theorem Rests.run : Rests (Session.run plan roots s).2 := by
  obtain ⟨hwrites, -, hindexes, -⟩ := writes_emitted hplan hs.closed h
  have hfinish := (Session.walked_of_run h).2.1
  rw [hplan] at hfinish
  have hclosed := closed_finish (s.walked plan roots).workspace
  have hnotes := notes_of_finish (s.walked plan roots).workspace
  rw [show finish.run (s.walked plan roots).workspace = _ from hfinish] at hclosed hnotes
  have hcatalog := (Session.kept_at_end h).1
  refine ⟨hindexes.tidy (hwrites.tidy hs.tidy), ?_, ?_, hclosed, hnotes⟩
  · exact hcatalog ▸ (Session.orderly_run hs.orderly).1
  · exact hcatalog ▸ Session.remembers_walked hs.orderly hs.remembers

theorem Rests.named : ∀ f ∈ s.emitted plan roots, f.Named := by
  have hgenerates : plan.target.Generates fun o g f => [sourceOf o g f] := hplan ▸ generates
  exact Session.named_of_emitted hgenerates hs.orderly (Session.walked_of_run h).1

variable (hextension : '/' ∉ s.workspace.output.extension.toList)

include hextension

/-- When all roots have been taken up, nothing has to be made above the indexes. -/
theorem Rests.hasAbove {directory : List String}
    (hdirectory : directory ∈ (neededBy (s.emitted plan roots)).map (·.directory)) :
    (s.walked plan roots).workspace.files.HasAbove
      (indexPath s.workspace.output.root s.workspace.output.extension directory) := by
  have hsources := (writes_emitted hplan hs.closed h).1
  exact hasAbove_indexPath hsources hs.tidy.root hextension (hs.named hplan h) hdirectory

/-- The end of a run only adds indexes. -/
theorem Rests.lags : (s.walked plan roots).Lags (Session.run plan roots s).2 := by
  obtain ⟨hwrites, hnotes, hindexes, hclosed⟩ := writes_emitted hplan hs.closed h
  have hfinish := (Session.walked_of_run h).2.1
  obtain ⟨hcatalog, hhandled, hcounted⟩ := Session.kept_at_end h
  obtain ⟨hroot, hextension', -⟩ := Output.mk.inj hwrites.blank
  rw [hplan] at hfinish
  rw [hs.notes, List.nil_append] at hnotes
  have hfiles : (s.walked plan roots).workspace.files.Lags
      (Session.run plan roots s).2.workspace.files := by
    refine lags_of_finish hclosed (hwrites.tidy hs.tidy).root (fun directory hdirectory => ?_)
      hfinish
    rw [hnotes] at hdirectory
    rw [hroot, hextension']
    exact hs.hasAbove hplan h hextension hdirectory
  refine ⟨hcatalog, ⟨hfiles, hindexes.blank.symm, ?_, ?_⟩, hhandled, hcounted⟩
  · rw [hclosed, (hs.run hplan h).closed]
  · obtain ⟨placed, -, hwrote⟩ := hindexes
    rw [hwrote.written]
    exact List.subset_append_left _ _

end Ends

section Splits

variable {plan : Plan (List Child)} (hplan : plan.target = target) {first second : List Path}
  {s : Session (List Child)} (hs : Rests s) {stats : Stats}
  (h : s.SplitsCleanly plan first second stats)

include hplan hs h

/-- What two runs have written since all roots of the first one had been taken up. -/
theorem writes_split :
    let split := (Session.run plan second (Session.run plan first s).2).2
    let noted := neededBy (s.emitted plan first)
    let emitted := (Session.run plan first s).2.emitted plan second
    let o := s.workspace.output.blank
    (s.walked plan first).workspace.Writes
      (filesInTurn o noted (neededBy emitted) (emitted.map (sourceOf o split.catalog.graph)))
      split.workspace := by
  intro split noted emitted o
  obtain ⟨earlier, hearlier⟩ := h.ok
  obtain ⟨hwrites, -, hindexes, hclosed⟩ := writes_emitted hplan hs.closed hearlier
  obtain ⟨hsources, -, hindexes', -⟩ :=
    writes_emitted hplan (hs.run hplan hearlier).closed h.split
  rw [hs.notes, List.nil_append] at hindexes
  rw [hindexes.blank, hwrites.blank, (Session.kept_at_end h.split).1] at hsources
  rw [(hs.run hplan hearlier).notes, List.nil_append, hindexes.blank, hwrites.blank] at hindexes'
  exact hindexes.trans (hsources.trans hindexes')

/-- One run can take up all roots too, and both ways lead to the same files. -/
theorem walks_together :
    (second.forM (Run.root plan)).run (s.walked plan first) =
        (.ok (), (s.walked plan first).walked plan second) ∧
      ((s.walked plan first).walked plan second).Lags
        ((Session.run plan first s).2.walked plan second) ∧
      (s.walked plan first).emitted plan second =
        (Session.run plan first s).2.emitted plan second := by
  obtain ⟨earlier, hearlier⟩ := h.ok
  obtain ⟨hwrites, -, hindexes, hclosed⟩ := writes_emitted hplan hs.closed hearlier
  have hgenerates : plan.target.Generates fun o g f => [sourceOf o g f] := hplan ▸ generates
  have hcarries (g : Graph) (f : SchemaFile) (e : Event) :
      CarriesOver Workspace.Lags (plan.target.handle g f e) := hplan ▸ carries_handle g f e
  exact Session.walks_behind hgenerates (hplan ▸ works) hcarries
    (hs.lags hplan hearlier h.plain) (hwrites.tidy hs.tidy) hclosed (Session.orderly_run hs.orderly).1
    (Session.remembers_walked hs.orderly hs.remembers) hindexes (Session.walked_of_run h.split).1
    h.reads

/-- The indexes of both runs are there in the end. -/
theorem hasFile_of_split {directory : List String}
    (hdirectory : directory ∈ (neededBy (s.emitted plan first) ++
      neededBy ((Session.run plan first s).2.emitted plan second)).map (·.directory)) :
    (Session.run plan second (Session.run plan first s).2).2.workspace.files.HasFile
      (indexPath s.workspace.output.root s.workspace.output.extension directory) := by
  obtain ⟨earlier, hearlier⟩ := h.ok
  have hrests := hs.run hplan hearlier
  obtain ⟨hwrites, -, hindexes, hclosed⟩ := writes_emitted hplan hs.closed hearlier
  obtain ⟨hsources, -, hindexes', -⟩ :=
    writes_emitted hplan (hs.run hplan hearlier).closed h.split
  have htidy := hwrites.tidy hs.tidy
  obtain ⟨hroot, hextension, -⟩ := Output.mk.inj (hindexes.blank.trans hwrites.blank)
  have hsplit := writes_split hplan hs h
  refine ⟨?_, hsplit.exists_file htidy.root ?_⟩
  · rw [List.map_append, List.mem_append] at hdirectory
    rcases hdirectory with hnoted | hlater
    · exact (hs.hasAbove hplan hearlier h.plain hnoted).grows (hsplit.grows htidy.root)
    · have habove := hrests.hasAbove hplan h.split (hextension ▸ h.plain) hlater
      rw [hroot, hextension] at habove
      exact habove.grows (hindexes'.grows (hsources.tidy hrests.tidy).root)
  · rw [← mem_paths_filesInTurn, filesAtOnce, List.map_append, List.mem_append, mem_paths_indexes]
    exact .inr ⟨directory, hdirectory, rfl⟩

/-- One run succeeds if two runs do. -/
theorem run_at_once : (Session.run plan (first ++ second) s).1 = .ok stats := by
  obtain ⟨earlier, hearlier⟩ := h.ok
  obtain ⟨hroots, hlags, hemitted⟩ := walks_together hplan hs h
  obtain ⟨hwrites, hnoted, hindexes, hclosed⟩ := writes_emitted hplan hs.closed hearlier
  have hnotes := notes_of_emitted hplan hroots
  rw [hnoted, hs.notes, List.nil_append, hemitted] at hnotes
  have hgenerates : plan.target.Generates fun o g f => [sourceOf o g f] := hplan ▸ generates
  have hadvance := (Session.advances hgenerates hroots).1
  have hblank := (hadvance.writes hclosed _ List.prefix_rfl).blank
  obtain ⟨hroot, hextension, -⟩ := Output.mk.inj (hblank.trans hwrites.blank)
  -- All indexes can be written, since the two runs have written them.
  have hplain : '/' ∉ (Session.run plan first s).2.workspace.output.extension.toList := by
    obtain ⟨-, hsame, -⟩ := Output.mk.inj (hindexes.blank.trans hwrites.blank)
    exact hsame ▸ h.plain
  have hfront := hlags.workspace.files.trans
    ((hs.run hplan hearlier).lags hplan h.split hplain).workspace.files
  obtain ⟨now, hfinish⟩ := finish_behind (hadvance.closes hclosed) hfront
    fun directory hdirectory => by
      rw [hnotes] at hdirectory
      rw [hroot, hextension]
      exact hasFile_of_split hplan hs h hdirectory
  rw [Session.run_append_roots (Session.walked_of_run hearlier).1, session_run hroots, hplan,
    show target.finish.run _ = _ from hfinish, (Session.walked_of_run h.split).2.2, ← hlags.stats]
  rfl

/-- What one run has loaded and written since the roots in `first` had been taken up. -/
theorem writes_at_once :
    let split := (Session.run plan second (Session.run plan first s).2).2
    let single := (Session.run plan (first ++ second) s).2
    let noted := neededBy (s.emitted plan first)
    let emitted := (Session.run plan first s).2.emitted plan second
    let o := s.workspace.output.blank
    split.catalog = single.catalog ∧
      (s.walked plan first).workspace.Writes
        (filesAtOnce o noted (neededBy emitted) (emitted.map (sourceOf o split.catalog.graph)))
        single.workspace := by
  intro split single noted emitted o
  obtain ⟨earlier, hearlier⟩ := h.ok
  obtain ⟨-, hlags, hemitted⟩ := walks_together hplan hs h
  obtain ⟨hwrites, hnoted, -, hclosed⟩ := writes_emitted hplan hs.closed hearlier
  have hgoesOn := Session.run_append_roots (Session.walked_of_run hearlier).1 second
  have hsingle : single = (Session.run plan second (s.walked plan first)).2 :=
    congrArg Prod.snd hgoesOn
  have hok := run_at_once hplan hs h
  rw [hgoesOn] at hok
  obtain ⟨hsources, -, hindexes, -⟩ := writes_emitted hplan hclosed hok
  have hcatalog : ((s.walked plan first).walked plan second).catalog = split.catalog :=
    hlags.catalog.trans (Session.kept_at_end h.split).1
  rw [hemitted, hwrites.blank, hcatalog] at hsources
  rw [hemitted, hwrites.blank, hnoted, hs.notes, List.nil_append] at hindexes
  rw [hsingle]
  exact ⟨hcatalog.symm.trans (Session.kept_at_end hok).1, hsources.trans hindexes⟩

end Splits

end Rust

/-- A run over two lists of roots, and a run over the first and then one over the second. For Java
they are the same. For Rust the one run succeeds too. Both ways load, count and write to the same
files, which hold the same but for the indexes. At the end of a run the index of a directory
declares the modules that were added to it in that run, so both ways have the same outputs just if
the second run adds all modules of the first run again to each directory that it adds any to. -/
theorem outputs_of_split_run {settings : Settings} {dir : Path} {fs fs' : FileSystem}
    (tidy : fs.IsTidy) (first second : List Path) :
    (∀ plan s stats,
      (Session.start settings dir Java.target Java.extension ()).run fs = (.ok (plan, s), fs') →
      (Session.run plan first s).1 = .ok stats →
        Session.run plan second (Session.run plan first s).2 =
          Session.run plan (first ++ second) s) ∧
    ∀ plan s stats,
      (Session.start settings dir Rust.target Rust.extension []).run fs = (.ok (plan, s), fs') →
      s.SplitsCleanly plan first second stats →
        let split := (Session.run plan second (Session.run plan first s).2).2
        let single := (Session.run plan (first ++ second) s).2
        let index := Rust.indexPath settings.outDir (settings.fileExt.getD Rust.extension)
        let noted := Rust.neededBy (s.emitted plan first)
        let later := Rust.neededBy ((Session.run plan first s).2.emitted plan second)
        (Session.run plan (first ++ second) s).1 = .ok stats ∧ split.catalog = single.catalog ∧
        (∀ p, p ∈ single.workspace.output.written ↔ p ∈ split.workspace.output.written) ∧
        (∀ l, (∀ directory ∈ (noted ++ later).map (·.directory),
            ¬ single.workspace.files.Reaches .reach (index directory) (index directory).steps l) →
          single.workspace.files.contents? l = split.workspace.files.contents? l) ∧
        (∀ directory ∈ (noted ++ later).map (·.directory),
          single.workspace.files.read (index directory) =
            .ok (Output.bytes (Rust.indexLines settings.tool
              (Rust.namesIn (noted ++ later) directory))) ∧
          split.workspace.files.read (index directory) =
            .ok (Output.bytes (Rust.indexLines settings.tool
              (Rust.namesIn (Rust.lastNoted noted later directory) directory)))) ∧
        (single.workspace.SameOutput split.workspace ↔
          ∀ c ∈ noted, c.directory ∈ later.map (·.directory) → c ∈ later) := by
  constructor
  · intro plan s stats hstart hrun
    obtain ⟨hplan, -⟩ := Session.of_start hstart
    have hgenerates : plan.target.Generates Java.filesFor := hplan ▸ Java.generates
    have hclosed := (Session.advances hgenerates (Session.walked_of_run hrun).1).1.closes
      (Session.closed_of_start hstart)
    refine Session.run_append hrun ?_ second
    rw [hplan]
    show Emit.close.run (s.walked plan first).workspace = _
    rw [Emit.close_run, Workspace.closed_of_closed hclosed]
  · intro plan s stats hstart h split single index noted later
    obtain ⟨hplan, -, -, -, houtput⟩ := Session.of_start hstart
    have hs := Rust.rests_of_start tidy hstart
    obtain ⟨earlier, hearlier⟩ := h.ok
    have hroot := ((Rust.writes_emitted hplan hs.closed hearlier).1.tidy hs.tidy).root
    have hsplit := Rust.writes_split hplan hs h
    obtain ⟨hcatalog, hsingle⟩ := Rust.writes_at_once hplan hs h
    have hapart := WriteOrderLemmas.apart_beside hsplit hsingle hroot
      (fun _ => Rust.mem_paths_filesInTurn.symm) (WriteOrderLemmas.apart_of_written hsplit h.apart)
    -- All files have names, so indexes have paths of their own.
    have hnamed : ∀ f ∈ s.emitted plan first ++ (Session.run plan first s).2.emitted plan second,
        f.Named :=
      List.forall_mem_append.2
        ⟨hs.named hplan hearlier, (hs.run hplan hearlier).named hplan h.split⟩
    have hneeded : noted ++ later = Rust.neededBy
        (s.emitted plan first ++ (Session.run plan first s).2.emitted plan second) :=
      List.flatMap_append.symm
    have hmodules := Rust.isModule_of_neededBy hnamed
    have hsources := Rust.indexPath_not_mem (o := s.workspace.output.blank)
      (g := split.catalog.graph) hnamed (List.subset_append_right _ _)
    rw [← hneeded] at hmodules hsources
    have houtput' : s.workspace.output.blank =
        .new settings.outDir (settings.fileExt.getD Rust.extension) settings.tool := by
      rw [houtput]
      rfl
    rw [houtput'] at hsingle hsplit hsources hapart
    exact ⟨Rust.run_at_once hplan hs h, hcatalog,
      WriteOrderLemmas.written_beside hsingle hsplit fun _ => Rust.mem_paths_filesInTurn,
      fun l hl => Rust.contents_of_orders hsingle hsplit hroot hapart hl,
      fun d hd => Rust.reads_of_orders hsingle hsplit hroot hapart hmodules hsources hd,
      Rust.sameOutput_of_orders_iff hsingle hsplit hroot hapart hmodules hsources⟩

/-! ### Two files in one package -/

theorem FileSystem.keepsApart_of_looks {fs : FileSystem} {paths : List Path}
    (h : fs.looksApart paths.dedup = true) : fs.KeepsApart paths := by
  have hsymm : Std.Symm fun p q => ¬ fs.SameFile p q :=
    ⟨fun p q hpq hqp => hpq (hqp.imp fun _ => And.symm)⟩
  intro p hp q hq hsame
  by_contra hne
  exact (apart_of_looks h).forall (List.mem_dedup.2 hp) (List.mem_dedup.2 hq) hne hsame

namespace Strangers

/-- The one file and then the other one, in two runs and in one. -/
theorem runs_strangers :
    (∃ r ∈ (session Rust.extension []).runWithin (twinPlan Rust.target) 1
        (Rust.finishWith [([], ["p"]), (["p"], ["a"])]) [⟨"/s/a"⟩],
      (r.2.1 = [⟨[], "p"⟩, ⟨["p"], "a"⟩] ∧ r.2.2.1 = .ok ⟨1, 1, 0, 0⟩) ∧
      ∃ q ∈ r.2.2.2.runWithin (twinPlan Rust.target) 1
          (Rust.finishWith [([], ["p"]), (["p"], ["b"])]) [⟨"/s/b"⟩],
        (q.2.1 = [⟨[], "p"⟩, ⟨["p"], "b"⟩] ∧ q.2.2.1 = .ok ⟨2, 2, 0, 0⟩) ∧
        q.2.2.2.workspace.files.read ⟨"/o/p/mod.rs"⟩ =
          .ok (Output.bytes (Rust.indexLines twinSettings.tool ["b"])) ∧
        q.2.2.2.workspace.files.looksApart q.2.2.2.workspace.output.written.dedup = true ∧
        ∃ r' ∈ (session Rust.extension []).rootsWithin (twinPlan Rust.target) 1 [⟨"/s/a"⟩],
          r'.2.1 = .ok () ∧
          ∃ q' ∈ r.2.2.2.rootsWithin (twinPlan Rust.target) 1 [⟨"/s/b"⟩], q'.2.1 = .ok () ∧
            r.2.2.2.looksSteady (twinPlan Rust.target) r'.2.2.workspace.files [⟨"/s/b"⟩] q'.2.2 =
              true ∧ q'.2.2.looksSpared = true) ∧
    ∃ r ∈ (session Rust.extension []).runWithin (twinPlan Rust.target) 1
        (Rust.finishWith [([], ["p"]), (["p"], ["a", "b"])]) [⟨"/s/a"⟩, ⟨"/s/b"⟩],
      r.2.1 = [⟨[], "p"⟩, ⟨["p"], "a"⟩, ⟨[], "p"⟩, ⟨["p"], "b"⟩] ∧
      r.2.2.1 = .ok ⟨2, 2, 0, 0⟩ ∧ r.2.2.2.workspace.files.read ⟨"/o/p/mod.rs"⟩ =
        .ok (Output.bytes (Rust.indexLines twinSettings.tool ["a", "b"])) := by
  decide +kernel

theorem indexes_parted :
    Rust.indexes [⟨[], "p"⟩, ⟨["p"], "a"⟩] = [([], ["p"]), (["p"], ["a"])] ∧
      Rust.indexes [⟨[], "p"⟩, ⟨["p"], "b"⟩] = [([], ["p"]), (["p"], ["b"])] :=
  ⟨by cbv, by cbv⟩

theorem splitsCleanly :
    (session Rust.extension []).SplitsCleanly (twinPlan Rust.target) [⟨"/s/a"⟩] [⟨"/s/b"⟩]
      ⟨2, 2, 0, 0⟩ := by
  obtain ⟨⟨⟨_, _, _, parted⟩, hfirst, ⟨rfl, hok⟩, ⟨_, _, _⟩, hsecond, ⟨rfl, hok'⟩, -, hapart,
    ⟨_, _, halfway⟩, hhalfway, rfl, ⟨_, _, rejoined⟩, hrejoined, rfl, hsteady, hspared⟩,
    -⟩ := runs_strangers
  have hparted :=
    (Session.run_of_within hfirst (Rust.finish_eq_finishWith indexes_parted.1)).1
  have hended :=
    (Session.run_of_within hsecond (Rust.finish_eq_finishWith indexes_parted.2)).1
  exact {
    plain := by decide
    ok := ⟨_, hparted ▸ hok⟩
    split := by
      rw [hparted]
      exact hended ▸ hok'
    reads := by
      rw [hparted, Session.walked_eq (BoundedRunsLemmas.roots_of_within hhalfway).1]
      have hroots := (BoundedRunsLemmas.roots_of_within hrejoined).1
      exact ⟨Session.steady_of_looks hroots hsteady, Session.sources_of_looks hroots hspared⟩
    apart := by
      rw [hparted]
      exact hended ▸ FileSystem.keepsApart_of_looks hapart }

theorem run_one :
    (Session.run (twinPlan Java.target) [⟨"/s/a"⟩] (session Java.extension ())).1 =
      .ok ⟨1, 1, 0, 0⟩ := by
  have hruns : ∃ r ∈ (session Java.extension ()).runWithin (twinPlan Java.target) 1
      Java.target.finish [⟨"/s/a"⟩], r.2.2.1 = .ok ⟨1, 1, 0, 0⟩ := by
    decide +kernel
  obtain ⟨_, hwithin, h⟩ := hruns
  rwa [(Session.run_of_within hwithin fun _ _ => rfl).1]

end Strangers

open Strangers in
/-- For two files of one package, told in two runs or in one. -/
theorem outputs_of_split_run_strangers :
    (∃ plan s fs' stats,
      (Session.start twinSettings ⟨"/s"⟩ Java.target Java.extension ()).run system =
        (.ok (plan, s), fs') ∧
      (Session.run plan [⟨"/s/a"⟩] s).1 = .ok stats ∧
      Session.run plan [⟨"/s/b"⟩] (Session.run plan [⟨"/s/a"⟩] s).2 =
        Session.run plan ([⟨"/s/a"⟩] ++ [⟨"/s/b"⟩]) s) ∧
    ∃ plan s fs' stats,
      (Session.start twinSettings ⟨"/s"⟩ Rust.target Rust.extension []).run system =
        (.ok (plan, s), fs') ∧
      s.SplitsCleanly plan [⟨"/s/a"⟩] [⟨"/s/b"⟩] stats ∧
      (Session.run plan ([⟨"/s/a"⟩] ++ [⟨"/s/b"⟩]) s).1 = .ok stats := by
  obtain ⟨hjava, hrust⟩ := outputs_of_split_run isTidy_system [⟨"/s/a"⟩] [⟨"/s/b"⟩]
  exact ⟨⟨_, _, _, _, start_strangers _ _ _, run_one,
      hjava _ _ _ (start_strangers _ _ _) run_one⟩,
    _, _, _, _, start_strangers _ _ _, splitsCleanly,
      (hrust _ _ _ (start_strangers _ _ _) splitsCleanly).1⟩

open Strangers in
/-- Two schema files of one package are given to one session, one after the other. The index of the
package that the second run writes no longer declares what the first run wrote. -/
theorem index_forgets_earlier_run :
    ∃ plan s fs',
      (Session.start twinSettings ⟨"/s"⟩ Rust.target Rust.extension []).run system =
        (.ok (plan, s), fs') ∧
      (Session.run plan [⟨"/s/a"⟩] s).1 = .ok ⟨1, 1, 0, 0⟩ ∧
      (Session.run plan [⟨"/s/b"⟩] (Session.run plan [⟨"/s/a"⟩] s).2).1 = .ok ⟨2, 2, 0, 0⟩ ∧
      (Session.run plan [⟨"/s/a"⟩, ⟨"/s/b"⟩] s).1 = .ok ⟨2, 2, 0, 0⟩ ∧
      (Session.run plan [⟨"/s/a"⟩, ⟨"/s/b"⟩] s).2.workspace.files.read ⟨"/o/p/mod.rs"⟩ =
        .ok (Output.bytes (Rust.indexLines twinSettings.tool ["a", "b"])) ∧
      (Session.run plan [⟨"/s/b"⟩] (Session.run plan [⟨"/s/a"⟩] s).2).2.workspace.files.read
          ⟨"/o/p/mod.rs"⟩ =
        .ok (Output.bytes (Rust.indexLines twinSettings.tool ["b"])) := by
  obtain ⟨⟨⟨_, _, _⟩, hfirst, ⟨rfl, hok⟩, ⟨_, _, _⟩, hsecond, ⟨rfl, hok'⟩, hread, -⟩,
    ⟨_, _, _⟩, htogether, rfl, h⟩ := runs_strangers
  refine ⟨_, _, _, start_strangers _ _ _, ?_⟩
  rw [(Session.run_of_within hfirst (Rust.finish_eq_finishWith indexes_parted.1)).1,
    (Session.run_of_within htogether (Rust.finish_eq_finishWith
      (indexes_strangers _ (List.mem_pair.2 (.inl rfl))))).1]
  rw [(Session.run_of_within hsecond (Rust.finish_eq_finishWith indexes_parted.2)).1]
  exact ⟨hok, hok', h.1, h.2, hread⟩

end SchemaGen
