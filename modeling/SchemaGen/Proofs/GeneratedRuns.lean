import SchemaGen.Proofs.GeneratedFiles

/-!
# What a run generates

A run that succeeds has generated the files for all schema files that it told its target about, and
for nothing else. These are the files of its visits, each once. The graph has all of them in the
end, and with a file also the files that it depends on.

Results:
1. `Plan.Composes.roots`: what can be told of a run over roots from its steps; `Session.advances`:
   what it has written and counted.
2. `Loads.distinct`: no two files of a catalog have the same path.
3. `Session.told_of_dependency`: with a file the files that it depends on are told.
4. `Rust.writes_run`: the files that a run writes.
-/

namespace SchemaGen

variable {σ : Type}

/-! ## Definitions -/

/-- The statistics when further files have been told and root files have been left out. -/
def Stats.counting (s : Stats) (files : List SchemaFile) (left : Nat) : Stats where
  files := s.files + files.length
  messages := s.messages + (files.map (·.messages.countP (!·.isSkipped))).sum
  enums := s.enums + (files.map (·.enums.countP (!·.isSkipped))).sum
  skipped := s.skipped + left

/-- Whether a root file is left out: it is on the skip list, or it cannot be read. -/
def Session.leavesOut (plan : Plan σ) (path : Path) (s : Session σ) : Bool :=
  plan.skip.skips (Run.skipName s.workspace.files s.catalog.root path) ||
    match ((Catalog.load s.workspace.files path).run s.catalog).1 with
    | .ok _ => false
    | .error e => e.isAdvisory

/-- The root files that a run over `roots` leaves out. -/
def Session.leftOut (plan : Plan σ) (roots : List Path) (s : Session σ) : List Path :=
  Run.seen plan (fun path s => if s.leavesOut plan path then [path] else []) roots s

/-- A part of a run has generated `units` for the new ones of `files`, and has left out so many root
files. -/
structure Session.Advances (plan : Plan σ)
    (units : Output → Graph → SchemaFile → List GeneratedFile) (s : Session σ)
    (files : List SchemaFile) (left : Nat) (after : Session σ) : Prop where
  grows : s.catalog.graph.files <+: after.catalog.graph.files
  handled : ∀ p, p ∈ after.handled ↔ p ∈ s.handled ∨ p ∈ files.map (·.path)
  closes : s.workspace.output.current = none → after.workspace.output.current = none
  writes : s.workspace.output.current = none → ∀ G : Graph, after.catalog.graph.files <+: G.files →
    s.workspace.Writes ((EventOrderLemmas.todo plan.target.refuses s.handled files).flatMap
      (units s.workspace.output.blank G)) after.workspace
  stats : after.stats =
    s.stats.counting (EventOrderLemmas.todo plan.target.refuses s.handled files) left

/-- What `Did s files left after` says of a part of a run can be told from its steps. The part leads
from `s` to `after`, `files` are the files of its visits, and so many root files were left out. -/
structure Plan.Composes (plan : Plan σ)
    (Did : Session σ → List SchemaFile → Nat → Session σ → Prop) : Prop where
  nothing : ∀ {s after : Session σ} {left : Nat},
    s.catalog.graph.files <+: after.catalog.graph.files → after.handled = s.handled →
      after.workspace = s.workspace → after.stats = s.stats.counting [] left → Did s [] left after
  append : ∀ {s middle after : Session σ} {files more : List SchemaFile} {left others : Nat},
    Did s files left middle → Did middle more others after →
      Did s (files ++ more) (left + others) after
  file : ∀ {f : SchemaFile} {s after : Session σ},
    (Run.file plan f).run s = (.ok (), after) → Did s [f] 0 after
  grows : ∀ {s after : Session σ} {files : List SchemaFile} {left : Nat},
    Did s files left after → s.catalog.graph.files <+: after.catalog.graph.files

/-! ## 1. Runs over roots -/

variable {fs : FileSystem} {c : Catalog} {plan : Plan σ} {s after : Session σ} {c' : Catalog}
  {r : Request} {result : Except LoadError (List FileId)}
  {units : Output → Graph → SchemaFile → List GeneratedFile} {l : Location} {f : SchemaFile}
  {dir : Path}

theorem Loads.graph_grows (h : Loads fs c r result c') : c.graph.files <+: c'.graph.files := by
  induction h with
  | known => exact List.prefix_rfl
  | unread => exact List.prefix_rfl
  | stuck _ _ _ ih => exact ih
  | refused _ _ _ _ ih => exact ih
  | added _ _ _ _ ih => exact List.IsPrefix.trans ih (List.prefix_append _ _)
  | done => exact List.prefix_rfl
  | unresolved => exact List.prefix_rfl
  | cycle => exact List.prefix_rfl
  | failed _ _ _ ih => exact ih
  | nextFails _ _ _ _ ih ih' => exact ih.trans ih'
  | next _ _ _ _ ih ih' => exact ih.trans ih'

theorem Catalog.load_grows (fs : FileSystem) (p : Path) (c : Catalog) :
    c.graph.files <+: ((Catalog.load fs p).run c).2.graph.files := by
  cases hl : fs.canonicalize (c.root.join p) with
  | error cause => simpa only [Catalog.load_of_error hl] using List.prefix_rfl
  | ok l =>
    rw [Catalog.load_of_ok hl]
    exact ((Catalog.loads_both fs).1 c l).graph_grows

namespace GeneratedRunsLemmas

open Run EventOrderLemmas RootFilesLemmas

/-! ### Counting -/

theorem counting_append (s : Stats) (files more : List SchemaFile) (left others : Nat) :
    (s.counting files left).counting more others =
      s.counting (files ++ more) (left + others) := by
  simp only [Stats.counting, List.length_append, List.map_append, List.sum_append, Nat.add_assoc]

theorem counting_nil (s : Stats) : s.counting [] 0 = s := rfl

variable {events : List Event} {left : Nat} {path : Path}

theorem foldl_count_message (m : Message) (s : Stats) :
    (Event.ofMessage m).foldl Stats.count s = { s with messages := s.messages + 1 } := by
  simp only [Event.ofMessage, List.foldl_append, List.foldl_cons, List.foldl_map, List.foldl_nil,
    Stats.count, List.foldl_fixed]

theorem foldl_count_enumeration (e : Enumeration) (s : Stats) :
    (Event.ofEnumeration e).foldl Stats.count s = { s with enums := s.enums + 1 } := by
  simp only [Event.ofEnumeration, List.foldl_append, List.foldl_cons, List.foldl_map,
    List.foldl_nil, Stats.count, List.foldl_fixed]

theorem foldl_count_file (f : SchemaFile) (s : Stats) :
    (Event.ofFile f).foldl Stats.count s = s.counting [f] 0 := by
  have hmessages (messages : List Message) (s : Stats) :
      (messages.flatMap Event.ofMessage).foldl Stats.count s =
        { s with messages := s.messages + messages.length } := by
    induction messages generalizing s with
    | nil => rfl
    | cons m rest ih =>
      rw [List.flatMap_cons, List.foldl_append, foldl_count_message, ih, List.length_cons]
      simp only [Nat.add_assoc, Nat.add_comm 1]
  have henums (enums : List Enumeration) (s : Stats) :
      (enums.flatMap Event.ofEnumeration).foldl Stats.count s =
        { s with enums := s.enums + enums.length } := by
    induction enums generalizing s with
    | nil => rfl
    | cons e rest ih =>
      rw [List.flatMap_cons, List.foldl_append, foldl_count_enumeration, ih, List.length_cons]
      simp only [Nat.add_assoc, Nat.add_comm 1]
  simp only [Event.ofFile, List.cons_append, List.foldl_cons, List.foldl_append, hmessages, henums,
    Stats.count, List.foldl_nil, Stats.counting, List.map_cons, List.map_nil, List.sum_cons,
    List.sum_nil, List.countP_eq_length_filter, List.length_cons, List.length_nil, Nat.add_zero,
    Nat.zero_add]

/-! ### Steps of a run -/

variable {plan : Plan σ} {units : Output → Graph → SchemaFile → List GeneratedFile}
  {files : List SchemaFile} {s after : Session σ} {f : SchemaFile}

/-- Files that are new when others have been handled. -/
theorem todo_append_of_handled (refuses : SchemaFile → Bool) {handled middle : List Path}
    (h : ∀ p, p ∈ middle ↔ p ∈ handled ∨ p ∈ files.map (·.path)) (more : List SchemaFile) :
    todo refuses handled (files ++ more) =
      todo refuses handled files ++ todo refuses middle more := by
  rw [todo_append]
  congr 1
  exact todo_congr _ (fun p => by rw [h, List.mem_append, or_comm]) more

theorem advances_append {middle : Session σ} {more : List SchemaFile} {others : Nat}
    (h : s.Advances plan units files left middle)
    (h' : middle.Advances plan units more others after) :
    s.Advances plan units (files ++ more) (left + others) after := by
  have htodo := todo_append_of_handled plan.target.refuses h.handled more
  refine ⟨h.grows.trans h'.grows, fun p => ?_, h'.closes ∘ h.closes, fun hclosed G hG => ?_, ?_⟩
  · rw [h'.handled, h.handled, List.map_append, List.mem_append, or_assoc]
  · have hfirst := h.writes hclosed G (h'.grows.trans hG)
    have hrest := h'.writes (h.closes hclosed) G hG
    rw [hfirst.blank] at hrest
    rw [htodo, List.flatMap_append]
    exact hfirst.trans hrest
  · rw [h'.stats, h.stats, counting_append, htodo]

/-- Telling the target about events is letting it handle them, and counting them. -/
theorem tell_run_ok {now : Session σ} (h : (events.forM (tell plan f)).run s = (.ok (), now)) :
    ∃ w, (events.forM (plan.target.handle s.catalog.graph f)).run s.workspace = (.ok (), w) ∧
      now = { s with workspace := w, stats := events.foldl Stats.count s.stats } := by
  induction events generalizing s with
  | nil =>
    cases h
    exact ⟨_, rfl, rfl⟩
  | cons e rest ih =>
    rw [forM_run_cons, tell_run] at h
    rw [forM_run_cons]
    rcases hevent : (plan.target.handle s.catalog.graph f e).run s.workspace with ⟨(err | _), w⟩
    · rw [hevent] at h
      cases h
    · rw [hevent] at h
      exact ih h

/-- What becomes of a session that has come to a file without an error. -/
inductive Takes (plan : Plan σ) (f : SchemaFile) (s : Session σ) : Session σ → Prop
  | known : f.path ∈ s.handled → Takes plan f s s
  | refused : f.path ∉ s.handled → plan.target.refuses f = true →
      Takes plan f s { s with handled := s.handled ++ [f.path], stats := s.stats.skip }
  | told {w : Workspace σ} : f.path ∉ s.handled → plan.target.refuses f = false →
      ((Event.ofFile f).forM (plan.target.handle s.catalog.graph f)).run s.workspace =
        (.ok (), w) →
      Takes plan f s { s with
        workspace := w
        handled := s.handled ++ [f.path]
        stats := s.stats.counting [f] 0 }

theorem takes_of_file (h : (file plan f).run s = (.ok (), after)) : Takes plan f s after := by
  rw [file_run] at h
  split at h
  · next hhandled =>
    obtain rfl := (Prod.mk.inj h).2
    exact .known hhandled
  next hnew =>
  split at h
  · next hrefused =>
    obtain rfl := (Prod.mk.inj h).2
    exact .refused hnew hrefused
  next haccepted =>
  rcases htell : ((Event.ofFile f).forM (tell plan f)).run s with ⟨(e | _), now⟩
  · rw [htell] at h
    cases h
  · rw [htell] at h
    obtain ⟨w, hevents, rfl⟩ := tell_run_ok htell
    obtain rfl := (Prod.mk.inj h).2
    rw [foldl_count_file]
    exact .told hnew (Bool.eq_false_iff.2 haccepted) hevents

namespace Takes

variable {f : SchemaFile} {s after : Session σ} (h : Takes plan f s after)

include h

theorem catalog : after.catalog = s.catalog := by
  cases h <;> rfl

theorem grows : s.catalog.graph.files <+: after.catalog.graph.files :=
  h.catalog ▸ List.prefix_rfl

theorem handled (p : Path) : p ∈ after.handled ↔ p ∈ s.handled ∨ p ∈ [f].map (·.path) := by
  rw [List.map_singleton]
  cases h with
  | known hmem =>
    rw [List.mem_singleton]
    exact ⟨.inl, fun hp => hp.elim id fun heq => heq ▸ hmem⟩
  | refused => exact List.mem_append
  | told => exact List.mem_append

end Takes

theorem file_advances (h : plan.target.Generates units)
    (hrun : (file plan f).run s = (.ok (), after)) : s.Advances plan units [f] 0 after := by
  have htakes := takes_of_file hrun
  have hgrows := htakes.grows
  have hhandled := htakes.handled
  cases htakes with
  | known hmem =>
    have htodo : todo plan.target.refuses s.handled [f] = [] := by simp [todo, hmem]
    refine ⟨hgrows, hhandled, id, fun _ G _ => ?_, ?_⟩
    · rw [htodo]
      exact .refl _
    · rw [htodo, counting_nil]
  | refused _ hrefused =>
    rw [h.accepts f] at hrefused
    cases hrefused
  | told hnew haccepted hevents =>
    have htodo : todo plan.target.refuses s.handled [f] = [f] := by simp [todo, hnew, haccepted]
    refine ⟨hgrows, hhandled, (h.writes List.prefix_rfl f _ _ hevents).2, fun hclosed G hG => ?_, ?_⟩
    · rw [htodo, List.flatMap_singleton]
      exact ((h.writes hG f).of_closed hclosed hevents).1
    · rw [htodo]

theorem composes_advances (h : plan.target.Generates units) :
    plan.Composes fun s files left after => s.Advances plan units files left after where
  nothing hgrows hhandled hworkspace hstats :=
    ⟨hgrows, by simp [hhandled], fun hclosed => hworkspace ▸ hclosed,
      fun _ _ _ => hworkspace ▸ .refl _, hstats⟩
  append := advances_append
  file := file_advances h
  grows h := h.grows

/-- The files of the visit to a root file. -/
def visitAt (plan : Plan σ) (path : Path) (s : Session σ) : List Visit :=
  (s.visit? plan path).toList

/-- The root file, if it is left out. -/
def leftAt (plan : Plan σ) (path : Path) (s : Session σ) : List Path :=
  if s.leavesOut plan path then [path] else []

theorem not_leavesOut_of_visit {v : Visit} (h : s.visit? plan path = some v) :
    s.leavesOut plan path = false := by
  unfold Session.visit? at h
  unfold Session.leavesOut
  split at h
  · cases h
  · next hskip =>
    rw [Bool.eq_false_iff.2 hskip, Bool.false_or]
    split at h
    · next id catalog hload => rw [hload]
    · cases h

theorem stats_of_missed (h : (missed plan path s).1 = .ok ()) :
    (missed plan path s).2.2 = s.stats.counting [] (leftAt plan path s).length := by
  unfold leftAt Session.leavesOut
  unfold missed at h ⊢
  split
  · next hskip =>
    rw [hskip, Bool.true_or]
    rfl
  · next hskip =>
    rw [if_neg hskip] at h
    rw [Bool.eq_false_iff.2 hskip, Bool.false_or]
    rcases hload : (Catalog.load s.workspace.files path).run s.catalog with ⟨(e | id), catalog⟩
    · rw [hload] at h
      cases e with
      | unreadable => rfl
      | _ => cases h
    · rfl

theorem graph_of_missed (path : Path) (s : Session σ) :
    s.catalog.graph.files <+: (missed plan path s).2.1.graph.files :=
  catalog_of_missed (P := fun c => s.catalog.graph.files <+: c.graph.files) List.prefix_rfl
    (Catalog.load_grows s.workspace.files path s.catalog)

section Composes

variable {Did : Session σ → List SchemaFile → Nat → Session σ → Prop} (h : plan.Composes Did)
  {s after : Session σ}

include h

theorem files_compose {files : List SchemaFile}
    (hrun : (files.forM (file plan)).run s = (.ok (), after)) : Did s files 0 after := by
  induction files generalizing s with
  | nil =>
    obtain rfl := (Prod.mk.inj hrun).2
    exact h.nothing List.prefix_rfl rfl rfl rfl
  | cons f rest ih =>
    obtain ⟨_, now, hfile, hrest⟩ := run_bind_eq_ok hrun
    exact h.append (h.file hfile) (ih hrest)

theorem rootFile_composes {path : Path} (hrun : (rootFile plan path).run s = (.ok (), after)) :
    Did s ((visitAt plan path s).flatMap Visit.files) (leftAt plan path s).length after ∧
      ∀ v ∈ visitAt plan path s, v.catalog.graph.files <+: after.catalog.graph.files := by
  unfold visitAt
  cases hvisit : s.visit? plan path with
  | none =>
    rw [rootFile_run_none hvisit] at hrun
    obtain ⟨hok, rfl⟩ := Prod.mk.inj hrun
    exact ⟨h.nothing (graph_of_missed path s) rfl rfl (stats_of_missed hok), nofun⟩
  | some v =>
    rw [rootFile_run_some hvisit] at hrun
    have hfiles := files_compose h hrun
    have hleft : leftAt plan path s = [] := by
      rw [leftAt, not_leavesOut_of_visit hvisit]
      rfl
    have hgrows : s.catalog.graph.files <+: v.catalog.graph.files := by
      rw [(RunInvariantLemmas.catalog_of_visit hvisit).1]
      exact Catalog.load_grows _ _ _
    have hloaded : Did s [] 0 { s with catalog := v.catalog } := h.nothing hgrows rfl rfl rfl
    rw [hleft, Option.toList_some, List.flatMap_singleton]
    refine ⟨h.append hloaded hfiles, fun v' hv' => ?_⟩
    obtain rfl := List.mem_singleton.1 hv'
    exact h.grows hfiles

theorem rootFiles_compose {paths : List Path}
    (hrun : (paths.forM (rootFile plan)).run s = (.ok (), after)) :
    Did s ((along (rootFile plan) (visitAt plan) paths s).flatMap Visit.files)
        (along (rootFile plan) (leftAt plan) paths s).length after ∧
      ∀ v ∈ along (rootFile plan) (visitAt plan) paths s,
        v.catalog.graph.files <+: after.catalog.graph.files := by
  induction paths generalizing s with
  | nil =>
    obtain rfl := (Prod.mk.inj hrun).2
    exact ⟨h.nothing List.prefix_rfl rfl rfl rfl, nofun⟩
  | cons path rest ih =>
    obtain ⟨_, now, hpath, hrun⟩ := run_bind_eq_ok hrun
    obtain ⟨hfirst, hvisits⟩ := rootFile_composes h hpath
    obtain ⟨hrest, hothers⟩ := ih hrun
    rw [along, along, hpath, List.flatMap_append, List.length_append]
    refine ⟨h.append hfirst hrest, fun v hv => ?_⟩
    rcases List.mem_append.1 hv with hv | hv
    · exact (hvisits v hv).trans (h.grows hrest)
    · exact hothers v hv

end Composes

theorem rootFiles_advance (h : plan.target.Generates units) {paths : List Path}
    (hrun : (paths.forM (rootFile plan)).run s = (.ok (), after)) :
    s.Advances plan units
        ((along (rootFile plan) (visitAt plan) paths s).flatMap Visit.files)
        (along (rootFile plan) (leftAt plan) paths s).length after ∧
      ∀ v ∈ along (rootFile plan) (visitAt plan) paths s,
        v.catalog.graph.files <+: after.catalog.graph.files :=
  rootFiles_compose (composes_advances h) hrun

end GeneratedRunsLemmas

open GeneratedRunsLemmas

/-- What can be told of a run over roots from its steps, once it has gone through all roots. -/
theorem Plan.Composes.roots {Did : Session σ → List SchemaFile → Nat → Session σ → Prop}
    (h : plan.Composes Did) {roots : List Path}
    (hrun : (roots.forM (Run.root plan)).run s = (.ok (), after)) :
    Did s ((s.visited plan roots).flatMap Visit.files) (s.leftOut plan roots).length after ∧
      ∀ v ∈ s.visited plan roots, v.catalog.graph.files <+: after.catalog.graph.files := by
  rw [(Session.retraces plan roots s).same] at hrun
  rw [Session.visited, Session.leftOut, Run.seen_eq_along, Run.seen_eq_along]
  exact rootFiles_compose h hrun

/-- What a run over roots has done once it has gone through all of them. -/
theorem Session.advances (h : plan.target.Generates units) {roots : List Path}
    (hrun : (roots.forM (Run.root plan)).run s = (.ok (), after)) :
    s.Advances plan units ((s.visited plan roots).flatMap Visit.files)
        (s.leftOut plan roots).length after ∧
      ∀ v ∈ s.visited plan roots, v.catalog.graph.files <+: after.catalog.graph.files :=
  (composes_advances h).roots hrun

/-- The files that a run over roots has written for the files told. -/
theorem Session.writes_told (h : plan.target.Generates units) {roots : List Path}
    (fresh : s.handled = []) (hclosed : s.workspace.output.current = none)
    (hrun : (roots.forM (Run.root plan)).run s = (.ok (), after)) :
    s.workspace.Writes ((s.told plan roots).flatMap
      (units s.workspace.output.blank after.catalog.graph)) after.workspace := by
  have hwrites := (Session.advances h hrun).1.writes hclosed after.catalog.graph List.prefix_rfl
  rw [fresh, EventOrderLemmas.todo_nil] at hwrites
  exact hwrites

/-! ## 2. Paths of loaded files -/

/-- The catalog knows its files by their paths, and none of those that are being loaded is among
them. -/
structure Catalog.IsDistinct (c : Catalog) : Prop where
  absolute : c.root.isAbsolute = true
  known : ∀ f ∈ c.graph.files, (c.loaded? f.path).isSome
  nodup : (c.graph.files.map (·.path)).Nodup
  waiting : ∀ l ∈ c.loading, l.IsPlain ∧ c.loaded? l.path = none

theorem Catalog.loaded?_add (c : Catalog) (l : Location) (f : SchemaFile) (p : Path) :
    (c.add l f).loaded? p = if l.path.same p then some c.graph.nextId else c.loaded? p := by
  rw [loaded?, add, List.find?_cons]
  cases l.path.same p <;> rfl

theorem Catalog.IsDistinct.add (hc : c.IsDistinct) (hl : l.IsPlain) (hnew : c.loaded? l.path = none)
    (hloading : l ∉ c.loading) (hpath : f.path = l.path) :
    (c.add l f).IsDistinct where
  absolute := hc.absolute
  known e he := by
    rw [loaded?_add]
    split
    · rfl
    · next hne =>
      rcases List.mem_append.1 he with hold | hlast
      · exact hc.known e hold
      · obtain rfl := List.mem_singleton.1 hlast
        rw [show l.path = f.path from hpath.symm] at hne
        exact absurd (decide_eq_true rfl) hne
  nodup := by
    have hfiles : (c.add l f).graph.files =
        c.graph.files ++ [{ f with id := c.graph.nextId }] := rfl
    rw [hfiles, List.map_append, List.map_singleton, List.nodup_append]
    refine ⟨hc.nodup, List.nodup_singleton _, ?_⟩
    rintro p hp q hq rfl
    obtain ⟨e, he, rfl⟩ := List.mem_map.1 hp
    have heq : e.path = l.path := (List.mem_singleton.1 hq).trans hpath
    have hknown := hc.known e he
    rw [heq, hnew] at hknown
    cases hknown
  waiting m hm := by
    obtain ⟨hplain, hnone⟩ := hc.waiting m hm
    refine ⟨hplain, ?_⟩
    have hne : ¬ l.path.same m.path = true := by
      rw [Location.same_path_iff hl hplain]
      rintro rfl
      exact hloading hm
    rw [loaded?_add, if_neg hne]
    exact hnone

theorem Catalog.IsDistinct.enter (hc : c.IsDistinct) (hl : l.IsPlain)
    (hnew : c.loaded? l.path = none) : (c.enter l).IsDistinct where
  absolute := hc.absolute
  known := hc.known
  nodup := hc.nodup
  waiting m hm := by
    rcases List.mem_cons.1 hm with rfl | hm
    · exact ⟨hl, hnew⟩
    · exact hc.waiting m hm

/-- Loading keeps paths distinct, whatever file system it reads. -/
theorem Loads.distinct (h : Loads fs c r result c') (hc : c.IsDistinct) (hr : r.Admitted c) :
    c'.IsDistinct ∧ c'.root = c.root ∧ c'.loading = c.loading := by
  have hleave {c : Catalog} (hc : c.IsDistinct) : c.leave.IsDistinct :=
    ⟨hc.absolute, hc.known, hc.nodup, fun m hm => hc.waiting m (List.mem_of_mem_tail hm)⟩
  have hplain {c : Catalog} (hc : c.IsDistinct) {path : String} {l : Location}
      (hpath : fs.canonicalize (c.root / path) = .ok l) : l.IsPlain :=
    FileSystem.plain_of_canonicalize (Path.isAbsolute_join hc.absolute _) hpath
  induction h with
  | known => exact ⟨hc, rfl, rfl⟩
  | unread => exact ⟨hc, rfl, rfl⟩
  | stuck hnew _ _ ih =>
    obtain ⟨hafter, hroot, hloading⟩ := ih (hc.enter hr.1 hnew) trivial
    exact ⟨hleave hafter, hroot, congrArg List.tail hloading⟩
  | refused hnew _ _ _ ih =>
    obtain ⟨hafter, hroot, hloading⟩ := ih (hc.enter hr.1 hnew) trivial
    exact ⟨hleave hafter, hroot, congrArg List.tail hloading⟩
  | @added c after l d imported f hnew hread himports hbuild ih =>
    obtain ⟨hafter, hroot, hloading⟩ := ih (hc.enter hr.1 hnew) trivial
    have htail : after.leave.loading = c.loading := congrArg List.tail hloading
    have hwaits := hafter.waiting l (hloading ▸ List.mem_cons_self)
    refine ⟨(hleave hafter).add hr.1 hwaits.2 ?_ (Catalog.build_path hbuild), hroot, htail⟩
    rw [htail]
    exact hr.2
  | done => exact ⟨hc, rfl, rfl⟩
  | unresolved => exact ⟨hc, rfl, rfl⟩
  | cycle => exact ⟨hc, rfl, rfl⟩
  | failed hpath hloading _ ih => exact ih hc ⟨hplain hc hpath, hloading⟩
  | nextFails hpath hloading _ _ ih ih' =>
    obtain ⟨hafter, hroot, hsame⟩ := ih hc ⟨hplain hc hpath, hloading⟩
    obtain ⟨hfinal, hroot', hsame'⟩ := ih' hafter trivial
    exact ⟨hfinal, hroot'.trans hroot, hsame'.trans hsame⟩
  | next hpath hloading _ _ ih ih' =>
    obtain ⟨hafter, hroot, hsame⟩ := ih hc ⟨hplain hc hpath, hloading⟩
    obtain ⟨hfinal, hroot', hsame'⟩ := ih' hafter trivial
    exact ⟨hfinal, hroot'.trans hroot, hsame'.trans hsame⟩

/-- A catalog in which nothing is being loaded and which has grown over some history. -/
structure Catalog.IsOrderly (c : Catalog) : Prop extends c.IsDistinct where
  idle : c.loading = []
  grown : ∃ seen, c.IsGrown seen

theorem Catalog.IsOrderly.load (hc : c.IsOrderly) (fs : FileSystem) (p : Path) :
    ((Catalog.load fs p).run c).2.IsOrderly := by
  obtain ⟨seen, hgrown⟩ := hc.grown
  have hgrown' := (hgrown.load fs p).1
  cases hl : fs.canonicalize (c.root.join p) with
  | error cause =>
    rw [Catalog.load_of_error hl]
    exact hc
  | ok l =>
    rw [Catalog.load_of_ok hl] at hgrown' ⊢
    have hadmitted : (Request.file l).Admitted c :=
      ⟨FileSystem.plain_of_canonicalize (Path.isAbsolute_join hc.absolute p) hl,
        hc.idle ▸ List.not_mem_nil⟩
    obtain ⟨hdistinct, -, hloading⟩ :=
      ((Catalog.loads_both fs).1 c l).distinct hc.toIsDistinct hadmitted
    exact ⟨hdistinct, hloading.trans hc.idle, _, hgrown'⟩

/-! ## 3. Files told -/

/-- A session starts with nothing loaded, below a root that its path leads to. -/
theorem Session.catalog_of_start {settings : Settings} {target : Target σ} {extension : String}
    {notes : σ} {fs' : FileSystem}
    (h : (Session.start settings dir target extension notes).run fs = (.ok (plan, s), fs')) :
    Catalog.ofRoot fs dir = .ok s.catalog := by
  obtain ⟨catalog, output, skip, hcatalog, -, -, rfl⟩ := Session.start_ok h
  exact hcatalog

theorem Catalog.isOrderly_of_ofRoot (h : Catalog.ofRoot fs dir = .ok c) : c.IsOrderly := by
  have hgrown := (Catalog.grown_of_ofRoot h .start).1
  unfold Catalog.ofRoot at h
  split at h
  · next location _ =>
    cases h
    exact ⟨⟨location.isAbsolute_path, nofun, List.nodup_nil, nofun⟩, rfl, [], hgrown⟩
  · cases h

/-- What a dependency of a file depends on, the file depends on. -/
theorem Grown.dependencies_subset {seen : List FileSystem} {root : Path} {g : Graph}
    (h : Grown seen root g) {i j : FileId} (hf : g.file? i = some f) (hj : j ∈ f.dependencies) :
    ∃ e, g.file? j = some e ∧ e.dependencies ⊆ f.dependencies := by
  induction h generalizing i j f with
  | empty => cases hf
  | @insert g fs l d imported f' _ _ _ himported hbuild ih =>
    have hplace := Catalog.build_place hbuild
    have hid : f'.id = g.nextId := congrArg (·.1) hplace
    have hclosure : f'.dependencies = g.closure imported := congrArg (·.2.2.2.2) hplace
    rcases (Graph.file?_insert_iff hid).1 hf with hold | ⟨rfl, rfl⟩
    · obtain ⟨e, he, hsub⟩ := ih hold hj
      exact ⟨e, (Graph.file?_insert_iff hid).2 (.inl he), hsub⟩
    · rw [hclosure] at hj
      obtain ⟨id, hmem, hor⟩ := Graph.mem_closure_iff.1 hj
      obtain ⟨e, he⟩ : ∃ e, g.file? id = some e := ⟨_, List.getElem?_eq_getElem (himported id hmem)⟩
      -- What the imported file depends on is in the closure.
      have hsub : e.dependencies ⊆ f.dependencies := by
        intro k hk
        rw [hclosure, Graph.mem_closure_iff, ← DependenciesLemmas.dependenciesOf_eq he] at *
        exact ⟨id, hmem, .inl hk⟩
      rcases hor with hdep | rfl
      · rw [DependenciesLemmas.dependenciesOf_eq he] at hdep
        obtain ⟨e', he', hsub'⟩ := ih he hdep
        exact ⟨e', (Graph.file?_insert_iff hid).2 (.inl he'), fun k hk => hsub (hsub' hk)⟩
      · exact ⟨e, (Graph.file?_insert_iff hid).2 (.inl he), hsub⟩

namespace GeneratedRunsLemmas

open EventOrderLemmas

variable {v : Visit} {f : SchemaFile}

theorem mem_graph_of_visit (h : ∃ i, v.catalog.graph.file? i = some v.file) :
    ∀ f ∈ v.files, f ∈ v.catalog.graph.files := by
  intro f hf
  rcases List.mem_append.1 hf with hdep | hself
  · obtain ⟨i, -, hi⟩ := List.mem_filterMap.1 hdep
    exact List.mem_of_getElem? hi
  · obtain rfl := List.mem_singleton.1 hself
    obtain ⟨i, hi⟩ := h
    exact List.mem_of_getElem? hi

theorem mem_visit_files_of_dependency {seen : List FileSystem} (hgrown : v.catalog.IsGrown seen)
    {i : FileId} (hi : v.catalog.graph.file? i = some v.file) {e : SchemaFile} (hf : f ∈ v.files)
    {j : FileId} (hj : j ∈ f.dependencies) (he : v.catalog.graph.file? j = some e) :
    e ∈ v.files := by
  refine List.mem_append_left _ (List.mem_filterMap.2 ⟨j, ?_, he⟩)
  rcases List.mem_append.1 hf with hdep | hself
  · obtain ⟨k, hk, hfile⟩ := List.mem_filterMap.1 hdep
    obtain ⟨f', hf', hsub⟩ := hgrown.graph.dependencies_subset hi hk
    obtain rfl := Option.some.inj (hfile.symm.trans hf')
    exact hsub hj
  · obtain rfl := List.mem_singleton.1 hself
    exact hj

theorem exists_todo {refuses : SchemaFile → Bool} (h : ∀ f, refuses f = false) {handled : List Path}
    {files : List SchemaFile} (hf : f ∈ files) (hnew : f.path ∉ handled) :
    ∃ f' ∈ todo refuses handled files, f'.path = f.path := by
  induction files generalizing handled with
  | nil => cases hf
  | cons g rest ih =>
    rw [todo]
    split
    · next hg =>
      rcases List.mem_cons.1 hf with rfl | hf
      · exact absurd hg hnew
      · exact ih hf hnew
    · rw [if_neg (by simp [h g])]
      by_cases heq : g.path = f.path
      · exact ⟨g, List.mem_cons_self, heq⟩
      · rcases List.mem_cons.1 hf with rfl | hf
        · exact absurd rfl heq
        · obtain ⟨f', hf', hpath⟩ := ih hf fun hmem =>
            (List.mem_cons.1 hmem).elim (fun h => heq h.symm) hnew
          exact ⟨f', List.mem_cons_of_mem _ hf', hpath⟩

end GeneratedRunsLemmas

section Told

open EventOrderLemmas

variable {plan : Plan σ} {units : Output → Graph → SchemaFile → List GeneratedFile}
  (h : plan.target.Generates units) {roots : List Path} {s after : Session σ}
  (hs : s.catalog.IsOrderly) (hrun : (roots.forM (Run.root plan)).run s = (.ok (), after))

include hs

theorem Session.orderly_run :
    ((roots.forM (Run.root plan)).run s).2.catalog.IsOrderly ∧ ∀ v ∈ s.visited plan roots,
      v.catalog.IsOrderly ∧ ∃ i, v.catalog.graph.file? i = some v.file := by
  have hkeeps : plan.Keeps Catalog.IsOrderly fun _ => True :=
    ⟨fun fs p c hc => hc.load fs p, fun _ _ _ _ _ => trivial⟩
  have hhas : s.Has Catalog.IsOrderly fun _ => True := ⟨hs, trivial⟩
  obtain ⟨hafter, hvisits⟩ := hkeeps.run roots hhas
  exact ⟨hafter.1, hvisits⟩

variable {f : SchemaFile}

/-- The files of visits are files of a graph that the graphs of all visits have grown to. -/
theorem Session.mem_files_of_visited {g : Graph}
    (hgrows : ∀ v ∈ s.visited plan roots, v.catalog.graph.files <+: g.files)
    (hf : f ∈ (s.visited plan roots).flatMap Visit.files) : f ∈ g.files := by
  obtain ⟨v, hv, hfile⟩ := List.mem_flatMap.1 hf
  exact (hgrows v hv).subset (mem_graph_of_visit ((Session.orderly_run hs).2 v hv).2 f hfile)

include h hrun

theorem Session.mem_graph_of_visited (hf : f ∈ (s.visited plan roots).flatMap Visit.files) :
    f ∈ after.catalog.graph.files :=
  Session.mem_files_of_visited hs (Session.advances h hrun).2 hf

/-- The files told are files of the graph. -/
theorem Session.mem_graph_of_told (hf : f ∈ s.told plan roots) :
    ∃ i, after.catalog.graph.file? i = some f := by
  rw [Session.told, ← todo_nil] at hf
  exact List.getElem?_of_mem
    (Session.mem_graph_of_visited h hs hrun (CollisionsLemmas.mem_of_mem_todo hf))

/-- All files of visits are told, or they were handled before. -/
theorem Session.todo_of_visited {handled : List Path}
    (hf : f ∈ (s.visited plan roots).flatMap Visit.files) (hnew : f.path ∉ handled) :
    f ∈ todo plan.target.refuses handled ((s.visited plan roots).flatMap Visit.files) := by
  obtain ⟨f', hf', hpath⟩ := exists_todo h.accepts hf hnew
  -- Of the files with this path the graph has one only.
  have horderly : ((roots.forM (Run.root plan)).run s).2.catalog.IsOrderly :=
    (Session.orderly_run hs).1
  rw [hrun] at horderly
  have hfound := Session.mem_graph_of_visited h hs hrun (CollisionsLemmas.mem_of_mem_todo hf')
  have heq : f' = f := List.inj_on_of_nodup_map horderly.nodup hfound
    (Session.mem_graph_of_visited h hs hrun hf) hpath
  exact heq ▸ hf'

/-- With a file the files that it depends on are told, if they were not handled before. -/
theorem Session.todo_of_dependency {handled : List Path} {e : SchemaFile}
    (hf : f ∈ todo plan.target.refuses handled ((s.visited plan roots).flatMap Visit.files))
    {j : FileId} (hj : j ∈ f.dependencies) (he : after.catalog.graph.file? j = some e) :
    e.path ∈ handled ∨
      e ∈ todo plan.target.refuses handled ((s.visited plan roots).flatMap Visit.files) := by
  obtain ⟨v, hv, hfile⟩ := List.mem_flatMap.1 (CollisionsLemmas.mem_of_mem_todo hf)
  have hgrows := (Session.advances h hrun).2 v hv
  obtain ⟨horderly, i, hi⟩ := (Session.orderly_run hs).2 v hv
  obtain ⟨seen, hgrown⟩ := horderly.grown
  -- The graph of the visit has the dependency already.
  obtain ⟨k, hk⟩ := List.getElem?_of_mem (mem_graph_of_visit ⟨i, hi⟩ f hfile)
  obtain ⟨e', he', -⟩ := hgrown.graph.dependencies_subset hk hj
  obtain rfl := Option.some.inj ((Graph.file?_mono hgrows he').symm.trans he)
  exact or_iff_not_imp_left.2 (Session.todo_of_visited h hs hrun (List.mem_flatMap.2
    ⟨v, hv, mem_visit_files_of_dependency hgrown hi hfile hj he'⟩))

theorem Session.mem_told_of_visit {v : Visit} (hv : v ∈ s.visited plan roots) (hf : f ∈ v.files) :
    f ∈ s.told plan roots := by
  rw [Session.told, ← todo_nil]
  exact Session.todo_of_visited h hs hrun (List.mem_flatMap.2 ⟨v, hv, hf⟩) List.not_mem_nil

theorem Session.told_of_dependency {e : SchemaFile} (hf : f ∈ s.told plan roots) {j : FileId}
    (hj : j ∈ f.dependencies) (he : after.catalog.graph.file? j = some e) :
    e ∈ s.told plan roots := by
  rw [Session.told, ← todo_nil] at hf ⊢
  exact (Session.todo_of_dependency h hs hrun hf hj he).resolve_left List.not_mem_nil

end Told

/-! ## 4. Sessions -/

/-- All files that a run of a session for Rust writes. -/
theorem Rust.writes_run {plan : Plan (List Child)} (hplan : plan.target = target)
    {roots : List Path} {s : Session (List Child)} {stats : Stats} (fresh : s.handled = [])
    (hclosed : s.workspace.output.current = none) (hnotes : s.workspace.notes = [])
    (h : (Session.run plan roots s).1 = .ok stats) :
    s.workspace.Writes
      ((s.told plan roots).map
          (sourceOf s.workspace.output.blank (Session.run plan roots s).2.catalog.graph) ++
        (indexes (neededBy (s.told plan roots))).map (indexOf s.workspace.output.blank))
      (Session.run plan roots s).2.workspace := by
  obtain ⟨after, hrun, hfinish, hcatalog, -⟩ := Session.run_ok h
  have hgenerates : plan.target.Generates fun o g f => [sourceOf o g f] := hplan ▸ generates
  have hsources := Session.writes_told hgenerates fresh hclosed hrun
  rw [hplan] at hfinish
  have hindexes := writes_finish ((Session.advances hgenerates hrun).1.closes hclosed) hfinish
  rw [notes_of_run hplan fresh hnotes hrun, hsources.blank] at hindexes
  rw [hcatalog, List.map_eq_flatMap]
  exact hsources.trans hindexes

end SchemaGen
