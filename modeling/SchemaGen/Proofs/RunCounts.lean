import SchemaGen.Proofs.SourceFiles
import Mathlib.Data.Finset.Card
import Mathlib.Data.Finset.Dedup

/-!
# What a run counts

A run counts at four places of its way: root files that it passes over, files that its target
refuses, definitions that the target is told about, and files whose end the target is told. Root
files are counted as often as they are taken up. All else is counted once, since a file that was
told or refused before is not looked at again. Whatever the target is, what a successful run has
counted can be told from the root files that it takes up and from the calls of the target.

Results:
1. `Session.leavesOut_eq`: a root file is left out if it is on the skip list or cannot be read.
2. `composes_tallies`: what the parts of a run count.
3. `Session.ended_eq_told`, `Session.visited_distinct`: the files of a run, each with a path of its
   own.
4. `Session.stats_exact`: what a run of a new session counts.
-/

namespace SchemaGen

variable {σ : Type}

/-! ## Definitions -/

/-- A session that has not run yet. Its catalog may have loaded files before. -/
structure Session.IsFresh (s : Session σ) : Prop where
  catalog : ∃ fs dir start seen,
    Catalog.ofRoot fs dir = .ok start ∧ ReachedOver start seen s.catalog
  handled : s.handled = []
  stats : s.stats = .zero

/-- Whether a root file cannot be read: its path leads nowhere, or to a place where no file lies and
none was loaded from. -/
def Session.cannotRead (path : Path) (s : Session σ) : Bool :=
  match s.workspace.files.canonicalize (s.catalog.root.join path) with
  | .error _ => true
  | .ok l => (s.catalog.loaded? l.path).isNone && (s.workspace.files.contents? l).isNone

/-- The root files that are on the skip list or cannot be read, each as often as a run over `roots`
takes it up. -/
def Session.passedOver (plan : Plan σ) (roots : List Path) (s : Session σ) : List Path :=
  Run.seen plan (fun path now =>
    if plan.skip.skips (Run.skipName now.workspace.files now.catalog.root path) ||
      now.cannotRead path then [path] else []) roots s

/-- The files that the target refuses among those that a run over `roots` visits and those that
they depend on. -/
def Session.refused (plan : Plan σ) (roots : List Path) (s : Session σ) : List SchemaFile :=
  ((s.visited plan roots).flatMap Visit.files).filter plan.target.refuses

/-- The file whose end a call tells. -/
def Call.ended? : Call → Option SchemaFile
  | ⟨.event f .endFile, _⟩ => some f
  | _ => none

/-- A part of a run has counted the new ones of `files`, those that were told and those that were
refused, and the root files left out. -/
structure Session.Tallies (plan : Plan σ) (s : Session σ) (files : List SchemaFile) (left : Nat)
    (after : Session σ) : Prop where
  grows : s.catalog.graph.files <+: after.catalog.graph.files
  handled : ∀ p, p ∈ after.handled ↔ p ∈ s.handled ∨ p ∈ files.map (·.path)
  stats : after.stats =
    s.stats.counting (EventOrderLemmas.todo plan.target.refuses s.handled files)
      (left + (EventOrderLemmas.todo (!plan.target.refuses ·) s.handled files).length)

/-! ## 1. Root files that are left out -/

namespace RunCountsLemmas

open Run EventOrderLemmas GeneratedRunsLemmas SourceFilesLemmas

theorem isNone_contents?_of_read {fs : FileSystem} {root : Path} {l : Location} {d : Document}
    (h : Catalog.read fs root l = .ok d) : (fs.contents? l).isNone = false := by
  unfold Catalog.read at h
  split at h
  · cases h
  · next contents hread =>
    rw [FileSystem.readAt_eq_ok_iff.1 hread]
    rfl

theorem isAdvisory_of_read {fs : FileSystem} {root : Path} {l : Location} {e : LoadError}
    (h : Catalog.read fs root l = .error e) : e.isAdvisory = (fs.contents? l).isNone := by
  cases hcontents : fs.contents? l with
  | none =>
    unfold Catalog.read at h
    split at h
    · cases h
      rfl
    · next contents hread =>
      rw [FileSystem.readAt_eq_ok_iff, hcontents] at hread
      cases hread
  | some contents =>
    cases hadvisory : e.isAdvisory with
    | false => rfl
    | true =>
      rw [contents?_of_read h hadvisory] at hcontents
      cases hcontents

end RunCountsLemmas

open RunCountsLemmas SourceFilesLemmas

/-- A root file is left out if it is on the skip list or cannot be read. -/
theorem Session.leavesOut_eq (plan : Plan σ) (path : Path) (s : Session σ) :
    s.leavesOut plan path =
      (plan.skip.skips (Run.skipName s.workspace.files s.catalog.root path) ||
        s.cannotRead path) := by
  unfold Session.leavesOut Session.cannotRead
  congr 1
  cases hl : s.workspace.files.canonicalize (s.catalog.root.join path) with
  | error cause => simp only [Catalog.load_of_error hl, LoadError.isAdvisory]
  | ok l =>
    have hloads := (Catalog.loads_both s.workspace.files).1 s.catalog l
    simp only [Catalog.load_of_ok hl]
    rcases hrun : (Catalog.loadAt s.workspace.files s.catalog l).val with ⟨(e | id), catalog⟩
    · rw [hrun] at hloads
      cases hloads with
      | unread hnew hread => simp [hnew, isAdvisory_of_read hread]
      | stuck _ hread himports =>
        simp [himports.serious_imports e rfl, isNone_contents?_of_read hread]
      | refused _ hread _ hbuild =>
        simp [serious_build _ _ _ _ _ e hbuild, isNone_contents?_of_read hread]
    · rw [hrun] at hloads
      cases hloads with
      | known hloaded => simp [hloaded]
      | added _ hread => simp [isNone_contents?_of_read hread]

theorem Session.leftOut_eq (plan : Plan σ) (roots : List Path) (s : Session σ) :
    s.leftOut plan roots = s.passedOver plan roots := by
  simp only [Session.leftOut, Session.passedOver, Session.leavesOut_eq]

/-! ## 2. Parts of a run -/

namespace RunCountsLemmas

open Run EventOrderLemmas GeneratedRunsLemmas

variable {plan : Plan σ}

theorem tallies_append {s middle after : Session σ} {files more : List SchemaFile}
    {left others : Nat} (h : s.Tallies plan files left middle)
    (h' : middle.Tallies plan more others after) :
    s.Tallies plan (files ++ more) (left + others) after := by
  refine ⟨h.grows.trans h'.grows, fun p => ?_, ?_⟩
  · rw [h'.handled, h.handled, List.map_append, List.mem_append, or_assoc]
  · rw [h'.stats, h.stats, counting_append, todo_append_of_handled _ h.handled,
      todo_append_of_handled _ h.handled, List.length_append, Nat.add_add_add_comm]

theorem file_tallies {f : SchemaFile} {s after : Session σ}
    (hrun : (file plan f).run s = (.ok (), after)) : s.Tallies plan [f] 0 after := by
  have htakes := takes_of_file hrun
  refine ⟨htakes.grows, htakes.handled, ?_⟩
  cases htakes with
  | known hmem =>
    simp only [todo, if_pos hmem]
    rfl
  | refused hnew hrefused =>
    simp only [todo, if_neg hnew, hrefused]
    rfl
  | told hnew haccepted =>
    simp only [todo, if_neg hnew, haccepted]
    rfl

end RunCountsLemmas

/-- Whatever the target, what a part of a run counts can be told from its steps. -/
theorem composes_tallies (plan : Plan σ) :
    plan.Composes fun s files left after => s.Tallies plan files left after where
  nothing hgrows hhandled _ hstats := ⟨hgrows, fun p => by simp [hhandled], hstats⟩
  append := tallies_append
  file := file_tallies
  grows := (·.grows)

/-! ## 3. Files and paths -/

namespace RunCountsLemmas

open Run EventOrderLemmas GeneratedRunsLemmas

/-- Where a path belongs to one file only, it makes no difference that later repetitions of a path
are not looked at. -/
theorem mem_todo_iff {refuses : SchemaFile → Bool} {handled : List Path} {files : List SchemaFile}
    (hsame : ∀ f ∈ files, ∀ g ∈ files, f.path = g.path → f = g) {f : SchemaFile} :
    f ∈ todo refuses handled files ↔ f ∈ files ∧ f.path ∉ handled ∧ refuses f = false := by
  induction files generalizing handled with
  | nil => simp [todo]
  | cons g rest ih =>
    have hrest : ∀ f ∈ rest, ∀ g ∈ rest, f.path = g.path → f = g := fun f hf g hg =>
      hsame f (List.mem_cons_of_mem _ hf) g (List.mem_cons_of_mem _ hg)
    have hfirst (hf : f ∈ rest) : f.path = g.path ↔ f = g :=
      ⟨hsame f (List.mem_cons_of_mem _ hf) g List.mem_cons_self, congrArg _⟩
    rw [todo]
    split
    · next hhandled =>
      rw [ih hrest, List.mem_cons]
      grind
    · next hnew =>
      split
      · next hrefused =>
        rw [ih hrest, List.mem_cons, List.mem_cons]
        grind
      · next hrefused =>
        rw [List.mem_cons, ih hrest, List.mem_cons, List.mem_cons]
        grind

/-- The new files that are refused are counted by their paths. -/
theorem length_todo_not {refuses : SchemaFile → Bool} {files : List SchemaFile}
    (hsame : ∀ f ∈ files, ∀ g ∈ files, f.path = g.path → f = g) :
    (todo (!refuses ·) [] files).length =
      ((files.filter refuses).map (·.path)).toFinset.card := by
  have hpaths : ((todo (!refuses ·) [] files).map (·.path)).toFinset =
      ((files.filter refuses).map (·.path)).toFinset := by
    ext p
    simp [mem_todo_iff hsame]
  rw [← hpaths, List.toFinset_card_of_nodup (nodup_todo _ _ _).1, List.length_map]

theorem filterMap_ended_of_not_mem {events : List Event} (h : .endFile ∉ events) (f : SchemaFile) :
    ((events.map (Hook.event f)).map Hook.passed).filterMap Call.ended? = [] := by
  rw [List.filterMap_eq_nil_iff]
  intro call hcall
  obtain ⟨hook, hhook, rfl⟩ := List.mem_map.1 hcall
  obtain ⟨e, he, rfl⟩ := List.mem_map.1 hhook
  cases e with
  | endFile => exact absurd he h
  | _ => rfl

/-- The last event of a file, and no other, is its end. -/
theorem exists_documented (f : SchemaFile) :
    ∃ events, f.documented = events ++ [.endFile] ∧ .endFile ∉ events := by
  refine ⟨_, (List.append_assoc _ [Event.endEnums f.enums] [Event.endFile]).symm, ?_⟩
  simp [Message.documented, Enumeration.documented]

/-- When all went well, the files whose ends were told are those that were told. -/
theorem filterMap_ended_hooks (files : List SchemaFile) :
    ((SchemaFile.hooks files).map Hook.passed).filterMap Call.ended? = files := by
  induction files with
  | nil => rfl
  | cons f rest ih =>
    obtain ⟨events, hdocumented, hquiet⟩ := exists_documented f
    have hhooks : SchemaFile.hooks (f :: rest) =
        events.map (.event f) ++ .event f .endFile :: SchemaFile.hooks rest := by
      rw [SchemaFile.hooks, List.flatMap_cons, hdocumented, List.map_append, List.append_assoc]
      rfl
    rw [hhooks, List.map_append, List.filterMap_append, filterMap_ended_of_not_mem hquiet]
    exact congrArg (f :: ·) ih

end RunCountsLemmas

/-- In a successful run of a new session the target is told the ends of the files told. -/
theorem Session.ended_eq_told {plan : Plan σ} {roots : List Path} {s : Session σ} {stats : Stats}
    (fresh : s.handled = []) (h : (Session.run plan roots s).1 = .ok stats) :
    ∃ calls, Session.run plan.watched roots (s.logging []) =
        (.ok stats, (Session.run plan roots s).2.logging calls) ∧
      calls.filterMap Call.ended? = s.told plan roots := by
  obtain ⟨ending, hwatched⟩ := watched_run plan roots s
  obtain ⟨failure, hwent, hfailed⟩ := calls_follow_visits plan roots s
  rw [h] at hwatched
  rw [fresh, EventOrderLemmas.todo_nil] at hwent
  refine ⟨_, hwatched, ?_⟩
  cases failure with
  | some e =>
    rw [hfailed e rfl] at h
    cases h
  | none =>
    rw [hwent.calls_eq, List.filterMap_append, filterMap_ended_hooks]
    exact List.append_nil _

/-- Files of visits with the same path are the same file. -/
theorem Session.visited_distinct {plan : Plan σ} {roots : List Path} {s after : Session σ}
    (hs : s.catalog.IsOrderly) (hrun : (roots.forM (Run.root plan)).run s = (.ok (), after))
    {f g : SchemaFile} (hf : f ∈ (s.visited plan roots).flatMap Visit.files)
    (hg : g ∈ (s.visited plan roots).flatMap Visit.files) (hpath : f.path = g.path) : f = g := by
  have horderly : ((roots.forM (Run.root plan)).run s).2.catalog.IsOrderly :=
    (Session.orderly_run hs).1
  rw [hrun] at horderly
  have hgrows := ((composes_tallies plan).roots hrun).2
  exact List.inj_on_of_nodup_map horderly.nodup (Session.mem_files_of_visited hs hgrows hf)
    (Session.mem_files_of_visited hs hgrows hg) hpath

theorem Session.IsFresh.orderly {s : Session σ} (fresh : s.IsFresh) : s.catalog.IsOrderly := by
  obtain ⟨fs, dir, start, seen, hstart, hreached⟩ := fresh.catalog
  generalize s.catalog = c at hreached
  induction hreached with
  | start => exact Catalog.isOrderly_of_ofRoot hstart
  | load fs p _ ih => exact ih.load fs p

/-! ## 4. Whole runs -/

/-- A session is fresh when it starts. -/
theorem Session.isFresh_of_start {settings : Settings} {dir : Path} {target : Target σ}
    {extension : String} {notes : σ} {fs fs' : FileSystem} {plan : Plan σ} {s : Session σ}
    (h : (Session.start settings dir target extension notes).run fs = (.ok (plan, s), fs')) :
    s.IsFresh where
  catalog := ⟨fs, dir, s.catalog, [], Session.catalog_of_start h, .start⟩
  handled := (Session.of_start h).2.1
  stats := by
    obtain ⟨_, _, _, -, -, -, rfl⟩ := Session.start_ok h
    rfl

/-- What a successful run of a new session counts, for any target and skip list. The calls are
seen by watching the target. The files counted are those whose ends it was told, each path once; the
messages and enumerations are the kept ones of these files. Left out are root files that are on the
skip list or cannot be read, as often as they were taken up, and the files that the target refuses
among the visited files and those that they depend on, each path once. -/
theorem Session.stats_exact {plan : Plan σ} {roots : List Path} {s : Session σ} {stats : Stats}
    (fresh : s.IsFresh) (h : (Session.run plan roots s).1 = .ok stats) :
    ∃ calls, Session.run plan.watched roots (s.logging []) =
        (.ok stats, (Session.run plan roots s).2.logging calls) ∧
      let ended := calls.filterMap Call.ended?
      (ended.map (·.path)).Nodup ∧
      stats.files = (ended.map (·.path)).toFinset.card ∧
      stats.messages =
        (ended.map fun f => (f.messages.filter fun m => !m.ignored && !m.isDeprecated).length).sum ∧
      stats.enums =
        (ended.map fun f => (f.enums.filter fun e => !e.ignored && !e.isDeprecated).length).sum ∧
      stats.skipped = (s.passedOver plan roots).length +
        ((s.refused plan roots).map (·.path)).toFinset.card := by
  obtain ⟨calls, hwatched, hended⟩ := Session.ended_eq_told fresh.handled h
  obtain ⟨after, hrun, -, -, rfl⟩ := Session.run_ok h
  have hstats := ((composes_tallies plan).roots hrun).1.stats
  rw [fresh.handled, fresh.stats, Session.leftOut_eq, EventOrderLemmas.todo_nil] at hstats
  have hpaths : ((s.told plan roots).map (·.path)).Nodup := by
    rw [Session.told, ← EventOrderLemmas.todo_nil]
    exact (EventOrderLemmas.nodup_todo _ _ _).1
  have hkept (d : Described) : (!d.isSkipped) = (!d.ignored && !d.isDeprecated) := Bool.not_or _ _
  refine ⟨calls, hwatched, ?_⟩
  rw [hended, hstats]
  simp only [Stats.counting, List.countP_eq_length_filter, hkept]
  refine ⟨hpaths, ?_, Nat.zero_add _, Nat.zero_add _, ?_⟩
  · rw [List.toFinset_card_of_nodup hpaths, List.length_map]
    exact Nat.zero_add _
  · rw [Session.refused, ← length_todo_not fun f hf g hg =>
      Session.visited_distinct fresh.orderly hrun hf hg]
    exact Nat.zero_add _

/-! ### A target that refuses a file -/

namespace Refusal

open GeneratedRunsLemmas

/-- A file that imports another one and has a deprecated message, and a third one. -/
def entries : List (String × Node) :=
  [("a", .text ("package p; import \"b\"; message M \x7b \x7d // @deprecated\n" ++
      "message N \x7b \x7d enum E \x7b \x7d")),
    ("b", .text "package p; message K \x7b \x7d"), ("c", .text "")]

/-- The files before a session. -/
def system : FileSystem := schemaSystem entries

/-- The files and a place for outputs. -/
def systemWithOutput : FileSystem := schemaSystemWithOutput entries

/-- The file `c` is to be skipped. -/
def settings : Settings :=
  { twinSettings with skip := ["c"] }

/-- A target that refuses the imported file. -/
def target : Target Unit :=
  ⟨fun f => f.path = ⟨"/s/b"⟩, fun _ _ _ => pure (), pure ()⟩

def plan : Plan Unit :=
  ⟨target, ⟨[⟨[['c']]⟩]⟩, "proto"⟩

/-- The session at its start. -/
def session : Session Unit := schemaSession "" () entries

theorem start_refusal :
    (Session.start settings ⟨"/s"⟩ target "" ()).run system =
      (.ok (plan, session), systemWithOutput) :=
  start_beside _ _ _ rfl none entries

/-- A file that is not there, one to be skipped, and again the one that is not there. -/
def others : List Path :=
  [⟨"/s/x"⟩, ⟨"/s/c"⟩, ⟨"/s/x"⟩]

def roots : List Path :=
  ⟨"/s/a"⟩ :: ⟨"/s/b"⟩ :: others

theorem run_refusal : (Session.run plan roots session).1 = .ok ⟨1, 1, 1, 4⟩ := by
  have hruns : ∃ r ∈ session.runWithin plan 2 (pure ()) roots, r.2.2.1 = .ok ⟨1, 1, 1, 4⟩ := by
    decide +kernel
  obtain ⟨_, hwithin, h⟩ := hruns
  rwa [(Session.run_of_within hwithin fun _ _ => rfl).1]

end Refusal

open Refusal in
/-- One file is told, one refused and one skipped; one that cannot be read is taken up twice. -/
theorem Session.stats_exact_refusal :
    ∃ plan s fs' stats,
      (Session.start settings ⟨"/s"⟩ target "" ()).run system = (.ok (plan, s), fs') ∧
      s.IsFresh ∧ (Session.run plan roots s).1 = .ok stats ∧ stats = ⟨1, 1, 1, 4⟩ ∧
      ∃ calls, Session.run plan.watched roots (s.logging []) =
          (.ok stats, (Session.run plan roots s).2.logging calls) ∧
        let ended := calls.filterMap Call.ended?
        (ended.map (·.path)).Nodup ∧
        stats.files = (ended.map (·.path)).toFinset.card ∧
        stats.messages = (ended.map fun f =>
          (f.messages.filter fun m => !m.ignored && !m.isDeprecated).length).sum ∧
        stats.enums =
          (ended.map fun f => (f.enums.filter fun e => !e.ignored && !e.isDeprecated).length).sum ∧
        stats.skipped = (s.passedOver plan roots).length +
          ((s.refused plan roots).map (·.path)).toFinset.card :=
  have fresh := Session.isFresh_of_start start_refusal
  ⟨_, _, _, _, start_refusal, fresh, run_refusal, rfl, Session.stats_exact fresh run_refusal⟩

end SchemaGen
