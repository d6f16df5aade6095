import SchemaGen.Proofs.EventOrder

/-!
# What runs keep

A run changes its catalog only by loading and its workspace only through its target. So a fact about
catalogs that loading keeps and a fact about workspaces that every event keeps hold all through a
run. They hold in particular of the catalogs at its visits.

With the log of a watched target as part of the workspace, this also tells what a successful run has
added to the workspace: what the events add that the files told stand for.

Results:
1. `Plan.Keeps.run`: what holds before a run holds after it and at its visits.
2. `Target.Adds.emitted`: what the events of a successful run add up to.
-/

namespace SchemaGen

variable {σ : Type}

/-! ## Definitions -/

/-- Loading keeps `J` of the catalog and the target keeps `K` of the workspace, with whatever
results. -/
structure Plan.Keeps (plan : Plan σ) (J : Catalog → Prop) (K : Workspace σ → Prop) : Prop where
  load : ∀ fs p c, J c → J ((Catalog.load fs p).run c).2
  handle : ∀ g f e w, K w → K ((plan.target.handle g f e).run w).2

/-- The facts of `Plan.Keeps` in a session. -/
def Session.Has (s : Session σ) (J : Catalog → Prop) (K : Workspace σ → Prop) : Prop :=
  J s.catalog ∧ K s.workspace

/-- While `base` holds, which the target keeps, each event that the target takes in adds `mark` to
`view`. -/
structure Target.Adds {β : Type} (t : Target σ) (base : Workspace σ → Prop)
    (view : Workspace σ → List β) (mark : SchemaFile → Event → List β) : Prop where
  kept : ∀ g f e w, base w → base ((t.handle g f e).run w).2
  added : ∀ g f e w, base w → ((t.handle g f e).run w).1 = .ok () →
    view ((t.handle g f e).run w).2 = view w ++ mark f e

/-- The files that a run of a new session tells its target about. -/
def Session.told (plan : Plan σ) (roots : List Path) (s : Session σ) : List SchemaFile :=
  SchemaFile.told plan.target.refuses ((s.visited plan roots).flatMap Visit.files)

/-- The files that a run tells its target about: those that the session has not handled yet. -/
def Session.emitted (plan : Plan σ) (roots : List Path) (s : Session σ) : List SchemaFile :=
  EventOrderLemmas.todo plan.target.refuses s.handled ((s.visited plan roots).flatMap Visit.files)

/-! ## 1. Facts that hold all through a run -/

namespace RunInvariantLemmas

open Run EventOrderLemmas

variable {plan : Plan σ} {J : Catalog → Prop} {K : Workspace σ → Prop}

/-- The part `act` of a run keeps the facts, and they hold of all visits that it makes. -/
def Holding (J : Catalog → Prop) (K : Workspace σ → Prop) (act : Run σ Unit)
    (visits : Session σ → List Visit) : Prop :=
  ∀ s, s.Has J K → (act.run s).2.Has J K ∧
    ∀ v ∈ visits s, J v.catalog ∧ ∃ i, v.catalog.graph.file? i = some v.file

theorem holding_nothing : Holding J K (pure ()) fun _ => [] := by
  intro s hs
  exact ⟨hs, nofun⟩

variable {α : Type} {act : α → Run σ Unit} {s : Session σ}

theorem holding_forM {visits : α → Session σ → List Visit} (h : ∀ a, Holding J K (act a) (visits a))
    (items : List α) : Holding J K (items.forM act) (along act visits items) := by
  induction items with
  | nil => exact holding_nothing
  | cons a rest ih =>
    intro s hs
    obtain ⟨hafter, hfirst⟩ := h a s hs
    rw [forM_run_cons, along]
    rcases hrun : (act a).run s with ⟨(e | _), after⟩
    · rw [hrun] at hafter
      refine ⟨hafter, fun v hv => ?_⟩
      rw [List.append_nil] at hv
      exact hfirst v hv
    · rw [hrun] at hafter
      obtain ⟨hfinal, hrest⟩ := ih after hafter
      refine ⟨hfinal, fun v hv => ?_⟩
      rcases List.mem_append.1 hv with hv | hv
      · exact hfirst v hv
      · exact hrest v hv

/-- Steps that load nothing make no visits. -/
theorem holding_quiet_forM (h : ∀ a, Holding J K (act a) fun _ => []) (items : List α) :
    Holding J K (items.forM act) fun _ => [] := by
  intro s hs
  obtain ⟨hafter, -⟩ := holding_forM h items s hs
  exact ⟨hafter, nofun⟩

theorem holding_tell (h : plan.Keeps J K) (f : SchemaFile) (e : Event) :
    Holding J K (tell plan f e) fun _ => [] := by
  intro s hs
  have hworkspace := h.handle s.catalog.graph f e s.workspace hs.2
  rw [tell_run]
  rcases hrun : (plan.target.handle s.catalog.graph f e).run s.workspace with ⟨(err | _), w⟩
  · rw [hrun] at hworkspace
    exact ⟨⟨hs.1, hworkspace⟩, nofun⟩
  · rw [hrun] at hworkspace
    exact ⟨⟨hs.1, hworkspace⟩, nofun⟩

theorem holding_file (h : plan.Keeps J K) (f : SchemaFile) :
    Holding J K (file plan f) fun _ => [] := by
  intro s hs
  rw [file_run]
  split
  · exact ⟨hs, nofun⟩
  split
  · exact ⟨hs, nofun⟩
  · obtain ⟨hafter, -⟩ := holding_quiet_forM (holding_tell h f) (Event.ofFile f) s hs
    rcases hrun : ((Event.ofFile f).forM (tell plan f)).run s with ⟨(e | _), after⟩
    · rw [hrun] at hafter
      exact ⟨hafter, nofun⟩
    · rw [hrun] at hafter
      exact ⟨hafter, nofun⟩

theorem catalog_of_visit {path : Path} {v : Visit} (h : s.visit? plan path = some v) :
    v.catalog = ((Catalog.load s.workspace.files path).run s.catalog).2 ∧
      ∃ i, v.catalog.graph.file? i = some v.file := by
  unfold Session.visit? at h
  split at h
  · cases h
  · split at h
    · next id catalog hload =>
      obtain ⟨f, hf, rfl⟩ := Option.map_eq_some_iff.1 h
      rw [hload]
      exact ⟨rfl, id, hf⟩
    · cases h

theorem holding_rootFile (h : plan.Keeps J K) (path : Path) :
    Holding J K (rootFile plan path) fun s => (s.visit? plan path).toList := by
  intro s hs
  show _ ∧ ∀ v ∈ (s.visit? plan path).toList, _
  cases hvisit : s.visit? plan path with
  | none =>
    rw [rootFile_run_none hvisit]
    exact ⟨⟨catalog_of_missed hs.1 (h.load s.workspace.files path s.catalog hs.1), hs.2⟩, nofun⟩
  | some v =>
    obtain ⟨hcatalog, hfile⟩ := catalog_of_visit hvisit
    have hv : J v.catalog := hcatalog ▸ h.load s.workspace.files path s.catalog hs.1
    rw [rootFile_run_some hvisit]
    obtain ⟨hafter, -⟩ := holding_quiet_forM (holding_file h) v.files
      { s with catalog := v.catalog } ⟨hv, hs.2⟩
    refine ⟨hafter, fun v' hv' => ?_⟩
    obtain rfl := List.mem_singleton.1 hv'
    exact ⟨hv, hfile⟩

theorem walks_holding (h : plan.Keeps J K) :
    Walks plan (fun path s => (s.visit? plan path).toList) (fun _ _ => ([] : List Unit))
      fun s outcome visits _ => s.Has J K → outcome.2.Has J K ∧
        ∀ v ∈ visits, J v.catalog ∧ ∃ i, v.catalog.graph.file? i = some v.file where
  nothing s hs := ⟨hs, nofun⟩
  rootFile := holding_rootFile h
  append hfirst hrest hs := by
    obtain ⟨hnow, hvisits⟩ := hfirst hs
    obtain ⟨hafter, hothers⟩ := hrest hnow
    exact ⟨hafter, fun v hv => (List.mem_append.1 hv).elim (hvisits v) (hothers v)⟩

end RunInvariantLemmas

open EventOrderLemmas RunInvariantLemmas

variable {plan : Plan σ} {s : Session σ} {β : Type} {base : Workspace σ → Prop}
  {view : Workspace σ → List β} {mark : SchemaFile → Event → List β} {roots : List Path}
  {after : Session σ}

theorem Plan.Keeps.run {J : Catalog → Prop} {K : Workspace σ → Prop} (h : plan.Keeps J K)
    (roots : List Path) (hs : s.Has J K) :
    ((roots.forM (Run.root plan)).run s).2.Has J K ∧
      ∀ v ∈ s.visited plan roots, J v.catalog ∧ ∃ i, v.catalog.graph.file? i = some v.file :=
  (walks_holding h).roots roots s hs

/-! ## 2. What events add up to -/

namespace RunInvariantLemmas

variable {β : Type} {base : Workspace σ → Prop} {view : Workspace σ → List β}
  {mark : SchemaFile → Event → List β}

/-- What a call adds. -/
def markOf (mark : SchemaFile → Event → List β) (c : Call) : List β :=
  match c.hook with
  | .event f e => mark f e
  | .finish => []

/-- As long as no call has failed, the view shows what the calls in the log have added. -/
def Accounted (base : Workspace σ → Prop) (view : Workspace σ → List β)
    (mark : SchemaFile → Event → List β) (before : List β) (w : Workspace (σ × List Call)) : Prop :=
  base w.silent ∧ ((∀ c ∈ w.notes.2, c.failure = none) →
    view w.silent = before ++ w.notes.2.flatMap (markOf mark))

theorem accounted_kept {plan : Plan σ} (h : plan.target.Adds base view mark) (before : List β) :
    plan.watched.Keeps (fun _ => True) (Accounted base view mark before) where
  load _ _ _ _ := trivial
  handle g f e w hw := by
    obtain ⟨hbase, hview⟩ := hw
    have hstep : (plan.watched.target.handle g f e).run w = _ :=
      watched_step_run (.event f e) (plan.target.handle g f e) w.silent w.notes.2
    rw [hstep]
    refine ⟨h.kept g f e w.silent hbase, fun hpassed => ?_⟩
    generalize hcall : Call.mk (.event f e)
      (failure? ((plan.target.handle g f e).run w.silent).1) = call at hpassed ⊢
    have hpassed' : ∀ c ∈ w.notes.2 ++ [call], c.failure = none := hpassed
    have hok : ((plan.target.handle g f e).run w.silent).1 = .ok () := by
      have hlast := hpassed' _ (List.mem_append_right _ List.mem_cons_self)
      rcases hresult : ((plan.target.handle g f e).run w.silent).1 with err | _
      · rw [← hcall, hresult] at hlast
        cases hlast
      · rfl
    have hview' := hview fun c hc => hpassed' c (List.mem_append_left _ hc)
    calc view ((plan.target.handle g f e).run w.silent).2
      _ = view w.silent ++ mark f e := h.added g f e w.silent hbase hok
      _ = before ++ (w.notes.2.flatMap (markOf mark) ++ mark f e) := by
        rw [hview', List.append_assoc]
      _ = before ++ (w.notes.2 ++ [call]).flatMap (markOf mark) := by
        rw [List.flatMap_append, List.flatMap_singleton, ← hcall]
        rfl

theorem flatMap_passed (mark : SchemaFile → Event → List β) (files : List SchemaFile) :
    ((SchemaFile.hooks files).map Hook.passed).flatMap (markOf mark) =
      files.flatMap fun f => f.documented.flatMap (mark f) := by
  rw [SchemaFile.hooks, List.flatMap_map, List.flatMap_assoc]
  refine congrArg (files.flatMap ·) (funext fun f => ?_)
  rw [List.flatMap_map]
  rfl

end RunInvariantLemmas

theorem Session.emitted_of_fresh (fresh : s.handled = []) (roots : List Path) :
    s.emitted plan roots = s.told plan roots := by
  rw [Session.emitted, fresh, todo_nil, Session.told]

/-- What a run has added to the view when it has gone through all its roots. -/
theorem Target.Adds.emitted (h : plan.target.Adds base view mark) (hbase : base s.workspace)
    (hrun : (roots.forM (Run.root plan)).run s = (.ok (), after)) :
    base after.workspace ∧
      view after.workspace = view s.workspace ++
        (s.emitted plan roots).flatMap fun f => f.documented.flatMap (mark f) := by
  -- The calls of the run are those for the files told, and none has failed.
  have hcalls : Run.seen plan (rootFileCalls plan) roots s =
      (SchemaFile.hooks (s.emitted plan roots)).map Hook.passed := by
    obtain ⟨failure, hfollows, hfailed⟩ := roots_follow plan roots s
    have hwent := hfollows.went
    rw [hrun] at hfailed
    cases failure with
    | some e => cases hfailed e rfl
    | none => exact hwent.calls_eq
  have hwatched := watches_forM (watches_root plan) roots s []
  rw [hrun, List.nil_append] at hwatched
  have hstart : (s.logging []).Has (fun _ => True) (Accounted base view mark (view s.workspace)) :=
    ⟨trivial, hbase, fun _ => (List.append_nil _).symm⟩
  obtain ⟨⟨-, hbase', hview⟩, -⟩ := (accounted_kept h _).run roots hstart
  rw [hwatched] at hbase' hview
  refine ⟨hbase', ?_⟩
  rw [← flatMap_passed, ← hcalls]
  refine hview fun c hc => ?_
  have hmem : c ∈ Run.seen plan (rootFileCalls plan) roots s := hc
  rw [hcalls] at hmem
  obtain ⟨hook, -, rfl⟩ := List.mem_map.1 hmem
  rfl

/-- What a run of a new session has added to the view when it has gone through all its roots. -/
theorem Target.Adds.run (h : plan.target.Adds base view mark) (fresh : s.handled = [])
    (hbase : base s.workspace) (hrun : (roots.forM (Run.root plan)).run s = (.ok (), after)) :
    base after.workspace ∧
      view after.workspace =
        view s.workspace ++ (s.told plan roots).flatMap fun f => f.documented.flatMap (mark f) := by
  rw [← Session.emitted_of_fresh fresh]
  exact h.emitted hbase hrun

end SchemaGen
