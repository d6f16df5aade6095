import SchemaGen.Proofs.GeneratedRuns

/-!
# Runs of a session that has run before

A session goes through one run after the other. Files that were loaded stay in its catalog, and files
that were handled are not handled again, so what a run does depends on the runs before it, failed ones
included.

What holds all along is stated for the catalog and the workspace together, as the files that the
target hears of are those in the catalog.

Results:
1. `Plan.Maintains.runs`: facts about catalog and workspace in any number of runs.
2. `Java.writes_emitted`: the files that a run of a session for Java writes.
-/

namespace SchemaGen

open EventOrderLemmas

variable {σ : Type}

/-! ## Definitions -/

/-- The session after runs over lists of roots, whatever their results were. -/
def Session.afterRuns (plan : Plan σ) (runs : List (List Path)) (s : Session σ) : Session σ :=
  runs.foldl (fun s roots => (Session.run plan roots s).2) s

/-- Loading keeps `I` of the catalog and the workspace, and so does the target, at every event of a
file in the catalog and at the end of a run. -/
structure Plan.Maintains (plan : Plan σ) (I : Catalog → Workspace σ → Prop) : Prop where
  load : ∀ p c w, I c w → I ((Catalog.load w.files p).run c).2 w
  handle : ∀ c w f e, I c w → f ∈ c.graph.files → e ∈ Event.ofFile f →
    I c ((plan.target.handle c.graph f e).run w).2
  finish : ∀ c w, I c w → I c (plan.target.finish.run w).2

/-! ## 1. Facts about catalog and workspace -/

namespace LaterRunsLemmas

open Run GeneratedRunsLemmas

variable {plan : Plan σ} {I : Catalog → Workspace σ → Prop} {s : Session σ}

theorem maintains_events (h : plan.Maintains I) {f : SchemaFile} {events : List Event}
    (hevents : ∀ e ∈ events, e ∈ Event.ofFile f) (hs : I s.catalog s.workspace)
    (hf : f ∈ s.catalog.graph.files) :
    let now := ((events.forM (tell plan f)).run s).2
    now.catalog = s.catalog ∧ I now.catalog now.workspace := by
  induction events generalizing s with
  | nil => exact ⟨rfl, hs⟩
  | cons e rest ih =>
    obtain ⟨he, hrest⟩ := List.forall_mem_cons.1 hevents
    have hstep := h.handle s.catalog s.workspace f e hs hf he
    rw [forM_run_cons, tell_run]
    rcases hrun : (plan.target.handle s.catalog.graph f e).run s.workspace with ⟨(err | _), w⟩
    · rw [hrun] at hstep
      exact ⟨rfl, hstep⟩
    · rw [hrun] at hstep
      exact ih hrest (s := ⟨s.catalog, w, s.handled, s.stats.count e⟩) hstep hf

theorem maintains_file (h : plan.Maintains I) {f : SchemaFile} (hs : I s.catalog s.workspace)
    (hf : f ∈ s.catalog.graph.files) :
    let now := ((file plan f).run s).2
    now.catalog = s.catalog ∧ I now.catalog now.workspace := by
  rw [file_run]
  split
  · exact ⟨rfl, hs⟩
  split
  · exact ⟨rfl, hs⟩
  · have hevents := maintains_events h (fun e he => he) hs hf
    rcases hrun : ((Event.ofFile f).forM (tell plan f)).run s with ⟨(e | _), now⟩ <;>
      rw [hrun] at hevents <;> exact hevents

theorem maintains_files (h : plan.Maintains I) {files : List SchemaFile}
    (hs : I s.catalog s.workspace) (hfiles : ∀ f ∈ files, f ∈ s.catalog.graph.files) :
    let now := ((files.forM (file plan)).run s).2
    now.catalog = s.catalog ∧ I now.catalog now.workspace := by
  induction files generalizing s with
  | nil => exact ⟨rfl, hs⟩
  | cons f rest ih =>
    obtain ⟨hf, hrest⟩ := List.forall_mem_cons.1 hfiles
    obtain ⟨hcatalog, hnow⟩ := maintains_file h hs hf
    rw [forM_run_cons]
    rcases hrun : (file plan f).run s with ⟨(e | _), now⟩
    · rw [hrun] at hcatalog hnow
      exact ⟨hcatalog, hnow⟩
    · rw [hrun] at hcatalog hnow
      obtain ⟨hlater, hfinal⟩ := ih hnow (by rw [hcatalog]; exact hrest)
      exact ⟨hlater.trans hcatalog, hfinal⟩

theorem maintains_rootFile (h : plan.Maintains I) (path : Path) (hs : I s.catalog s.workspace) :
    let now := ((rootFile plan path).run s).2
    I now.catalog now.workspace := by
  have hload := h.load path s.catalog s.workspace hs
  cases hvisit : s.visit? plan path with
  | none =>
    rw [rootFile_run_none hvisit]
    exact catalog_of_missed (P := (I · s.workspace)) hs hload
  | some v =>
    obtain ⟨hcatalog, hfile⟩ := RunInvariantLemmas.catalog_of_visit hvisit
    rw [rootFile_run_some hvisit]
    rw [← hcatalog] at hload
    exact (maintains_files h (s := { s with catalog := v.catalog }) hload
      (mem_graph_of_visit hfile)).2

theorem maintains_rootFiles (h : plan.Maintains I) (paths : List Path)
    (hs : I s.catalog s.workspace) :
    let now := ((paths.forM (rootFile plan)).run s).2
    I now.catalog now.workspace := by
  induction paths generalizing s with
  | nil => exact hs
  | cons path rest ih =>
    have hfirst := maintains_rootFile h path hs
    rw [forM_run_cons]
    rcases hrun : (rootFile plan path).run s with ⟨(e | _), now⟩
    · rw [hrun] at hfirst
      exact hfirst
    · rw [hrun] at hfirst
      exact ih hfirst

end LaterRunsLemmas

open LaterRunsLemmas

variable {plan : Plan σ} {s : Session σ}

theorem Plan.Maintains.run {I : Catalog → Workspace σ → Prop} (h : plan.Maintains I)
    (roots : List Path) (hs : I s.catalog s.workspace) :
    I (Session.run plan roots s).2.catalog (Session.run plan roots s).2.workspace := by
  have hroots := maintains_rootFiles h (s.tried plan roots) hs
  rw [← (Session.retraces plan roots s).same] at hroots
  rw [session_run rfl]
  exact h.finish _ _ hroots

theorem Plan.Maintains.runs {I : Catalog → Workspace σ → Prop} (h : plan.Maintains I)
    (runs : List (List Path)) (hs : I s.catalog s.workspace) :
    I (s.afterRuns plan runs).catalog (s.afterRuns plan runs).workspace := by
  induction runs generalizing s with
  | nil => exact hs
  | cons roots rest ih => exact ih (h.run roots hs)

/-! ## 2. Files of a later run -/

theorem Session.orderly_afterRuns (hs : s.catalog.IsOrderly) (runs : List (List Path)) :
    (s.afterRuns plan runs).catalog.IsOrderly := by
  have hmaintains : plan.Maintains fun c _ => c.IsOrderly :=
    ⟨fun p _ w hc => hc.load w.files p, fun _ _ _ _ hc _ _ => hc, fun _ _ hc => hc⟩
  exact hmaintains.runs runs hs

/-- Runs that end with no file open leave none open. -/
theorem Session.closed_afterRuns (h : ∀ w, (plan.target.finish.run w).2.output.current = none)
    (hs : s.workspace.output.current = none) (runs : List (List Path)) :
    (s.afterRuns plan runs).workspace.output.current = none := by
  induction runs generalizing s with
  | nil => exact hs
  | cons roots rest ih =>
    refine ih (s := (Session.run plan roots s).2) ?_
    rw [session_run rfl]
    exact h _

theorem Java.writes_finish {w now : Workspace Unit} (hclosed : w.output.current = none)
    (h : target.finish.run w = (.ok (), now)) : w.Writes [] now := by
  rw [show target.finish.run w = _ from Emit.close_run w, Workspace.closed_of_closed hclosed] at h
  obtain rfl := (Prod.mk.inj h).2
  exact .refl w

/-- All files that a run of a session for Java writes. -/
theorem Java.writes_emitted {plan : Plan Unit} (hplan : plan.target = target) {roots : List Path}
    {s : Session Unit} {stats : Stats} (hclosed : s.workspace.output.current = none)
    (h : (Session.run plan roots s).1 = .ok stats) :
    s.workspace.Writes ((s.emitted plan roots).flatMap
        (filesFor s.workspace.output.blank (Session.run plan roots s).2.catalog.graph))
      (Session.run plan roots s).2.workspace := by
  obtain ⟨after, hrun, hfinish, hcatalog, -⟩ := Session.run_ok h
  have hgenerates : plan.target.Generates filesFor := hplan ▸ generates
  have hadvance := (Session.advances hgenerates hrun).1
  have hsources := hadvance.writes hclosed after.catalog.graph List.prefix_rfl
  rw [hplan] at hfinish
  rw [hcatalog, ← List.append_nil (List.flatMap _ _)]
  exact hsources.trans (writes_finish (hadvance.closes hclosed) hfinish)

end SchemaGen
