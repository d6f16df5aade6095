import SchemaGen.Proofs.BoundedLoading
import SchemaGen.Proofs.Steps
import SchemaGen.Session
import Mathlib.Data.List.Basic

/-!
# The order in which a run calls its target

A run calls the hooks of its target: one for every event of a file, and `finish` at its end. To see
the calls, the target is watched: `Target.watched` is the same target with a log, into which every
call is written together with the error that it ended with, if it failed. Watching a run changes
neither its result nor anything else in the session (`watched_run`).

What the calls should be is said without following the run's bookkeeping. A run visits root files
one after the other (`visited`). A visited file stands for the files it depends on and itself; all
of these in order, without later repetitions of a path and without the refused files, are the files
that the target is told about (`SchemaFile.told`), each by the documented sequence of events.

Results:
1. `watched_run`: the log is what the run adds to it, and nothing else changes.
2. `calls_follow_visits`: from any state, the calls are those for the visited files, up to the
   first one that fails.
3. `run_calls`: the same for a whole run of a new session, with `finish` as the last call of all.
-/

namespace SchemaGen

/-! ## Watched targets -/

/-- A hook of a target, with what it is told. -/
inductive Hook where
  | event (f : SchemaFile) (e : Event)
  | finish
deriving DecidableEq, Repr

/-- A call of a hook, with the error that it ended with. -/
structure Call where
  hook : Hook
  failure : Option RunError
deriving DecidableEq, Repr

/-- The error of a result. -/
def failure? {α : Type} : Except RunError α → Option RunError
  | .ok _ => none
  | .error e => some e

/-- The call of a hook that did not fail. -/
def Hook.passed (h : Hook) : Call := ⟨h, none⟩

variable {σ : Type}

/-- The workspace with a log of calls in its notes. -/
def Workspace.logging (w : Workspace σ) (calls : List Call) : Workspace (σ × List Call) :=
  ⟨w.files, w.output, (w.notes, calls)⟩

/-- The workspace without the log. -/
def Workspace.silent (w : Workspace (σ × List Call)) : Workspace σ :=
  ⟨w.files, w.output, w.notes.1⟩

/-- A step of a target that is also written into the log. -/
def Emit.watched (h : Hook) (step : Emit σ Unit) : Emit (σ × List Call) Unit := fun w =>
  let (result, after) := step.run w.silent
  (result, after.logging (w.notes.2 ++ [⟨h, failure? result⟩]))

/-- The target with a log of its calls. -/
def Target.watched (t : Target σ) : Target (σ × List Call) where
  refuses := t.refuses
  handle g f e := (t.handle g f e).watched (.event f e)
  finish := t.finish.watched .finish

/-- The plan with a target that is watched. -/
def Plan.watched (plan : Plan σ) : Plan (σ × List Call) :=
  ⟨plan.target.watched, plan.skip, plan.schemaExt⟩

/-- The session with a log of calls. -/
def Session.logging (s : Session σ) (calls : List Call) : Session (σ × List Call) :=
  ⟨s.catalog, s.workspace.logging calls, s.handled, s.stats⟩

/-! ## What a run sees on its way -/

namespace Run

/-- What is seen at each item of a list while `act` goes through it: `seen` tells it from the state
just before the item. Nothing more is seen once `act` has failed. -/
def along {α β : Type} (act : α → Run σ Unit) (seen : α → Session σ → List β) :
    List α → Session σ → List β
  | [], _ => []
  | a :: rest, s => seen a s ++
    match (act a).run s with
    | (.ok _, after) => along act seen rest after
    | (.error _, _) => []

/-- What is seen at an entry of a directory, where `see` tells it for a schema file and `below` for
a directory. -/
def seenEntry {β : Type} (plan : Plan σ) (see below : Path → Session σ → List β) (dir : Path)
    (e : String × Node) (s : Session σ) : List β :=
  if e.1.toList.head? = some '.' then []
  else
    match e.2 with
    | .directory .. => below (dir / e.1) s
    | .file .. => if (dir / e.1).extension? = some plan.schemaExt then see (dir / e.1) s else []
    | .link _ => []

/-- What is seen below a directory. -/
def seenBelow {β : Type} (plan : Plan σ) (see : Path → Session σ → List β) :
    (depth : Nat) → Path → Session σ → List β
  | 0, _, _ => []
  | depth + 1, dir, s =>
    along (entry plan (directory plan depth) dir)
      (seenEntry plan see (seenBelow plan see depth) dir) (s.workspace.files.list dir) s

/-- What is seen at a root. -/
def seenAtRoot {β : Type} (plan : Plan σ) (see : Path → Session σ → List β) (path : Path)
    (s : Session σ) : List β :=
  if s.workspace.files.isDirectory path then seenBelow plan see FileSystem.maxPathSize path s
  else see path s

/-- What is seen at all roots, until the run stops. -/
def seen {β : Type} (plan : Plan σ) (see : Path → Session σ → List β) (roots : List Path)
    (s : Session σ) : List β :=
  along (root plan) (seenAtRoot plan see) roots s

end Run

/-- A root file that was loaded, and the catalog just after that. -/
structure Visit where
  catalog : Catalog
  file : SchemaFile

/-- The files that a visited file stands for: those it depends on, and itself. -/
def Visit.files (v : Visit) : List SchemaFile :=
  v.file.dependencies.filterMap v.catalog.graph.file? ++ [v.file]

/-- The visit to the root file `path`, unless it is on the skip list or does not load. -/
def Session.visit? (plan : Plan σ) (path : Path) (s : Session σ) : Option Visit :=
  if plan.skip.skips (Run.skipName s.workspace.files s.catalog.root path) then none
  else
    match (Catalog.load s.workspace.files path).run s.catalog with
    | (.ok id, catalog) => (catalog.graph.file? id).map (⟨catalog, ·⟩)
    | (.error _, _) => none

/-- The visits that a run over `roots` makes, in order, until it stops. -/
def Session.visited (plan : Plan σ) (roots : List Path) (s : Session σ) : List Visit :=
  Run.seen plan (fun path s => (s.visit? plan path).toList) roots s

/-- The files of a list that a target is told about: no path twice, and no file it refuses. -/
def SchemaFile.told (refuses : SchemaFile → Bool) (files : List SchemaFile) : List SchemaFile :=
  (files.eraseDupsBy fun f g => f.path == g.path).filter fun f => !refuses f

/-- The documented sequence of events for a message: around it, then around its kept fields. -/
def Message.documented (m : Message) : List Event :=
  [.beginDefinition (.message m), .beginMessage m] ++
    (m.fields.filter fun f => !f.ignored && !f.isDeprecated).map .field ++
    [.endMessage m, .endDefinition (.message m)]

/-- The documented sequence of events for an enumeration. The last kept constant is marked. -/
def Enumeration.documented (e : Enumeration) : List Event :=
  let kept := e.constants.filter fun c => !c.ignored && !c.isDeprecated
  [.beginDefinition (.enumeration e), .beginEnum e] ++
    (kept.mapIdx fun i c => .constant c (i + 1 == kept.length)) ++
    [.endEnum e kept, .endDefinition (.enumeration e)]

/-- The documented sequence of events for a file. The events around the definitions show all of
them, but only the kept ones have events of their own. -/
def SchemaFile.documented (f : SchemaFile) : List Event :=
  [.beginFile, .beginMessages f.messages] ++
    (f.messages.filter fun m => !m.ignored && !m.isDeprecated).flatMap Message.documented ++
    [.endMessages f.messages, .beginEnums f.enums] ++
    (f.enums.filter fun e => !e.ignored && !e.isDeprecated).flatMap Enumeration.documented ++
    [.endEnums f.enums, .endFile]

/-- The hooks that tell a target about files, in order. -/
def SchemaFile.hooks (files : List SchemaFile) : List Hook :=
  files.flatMap fun f => f.documented.map (.event f)

/-! ## Helpers -/

namespace EventOrderLemmas

open Run

/-! ### Running steps -/

variable {α : Type} {plan : Plan σ} {s : Session σ} {calls others : List Call} {e : RunError}
  {after : Session σ}

theorem onTarget_run (step : Emit σ α) (s : Session σ) :
    (onTarget step).run s =
      ((step.run s.workspace).1, { s with workspace := (step.run s.workspace).2 }) := by
  simp only [onTarget, run_bind, run_get]
  rcases step.run s.workspace with ⟨(e | a), w⟩ <;> rfl

theorem tell_run (plan : Plan σ) (f : SchemaFile) (e : Event) (s : Session σ) :
    (tell plan f e).run s =
      match (plan.target.handle s.catalog.graph f e).run s.workspace with
      | (.ok _, w) => (.ok (), { s with workspace := w, stats := s.stats.count e })
      | (.error err, w) => (.error err, { s with workspace := w }) := by
  simp only [Run.tell, run_bind, run_get, onTarget_run, run_modify]
  rcases (plan.target.handle s.catalog.graph f e).run s.workspace with ⟨(err | _), w⟩ <;> rfl

theorem file_run (plan : Plan σ) (f : SchemaFile) (s : Session σ) :
    (file plan f).run s =
      if f.path ∈ s.handled then (.ok (), s)
      else if plan.target.refuses f then
        (.ok (), { s with handled := s.handled ++ [f.path], stats := s.stats.skip })
      else
        match ((Event.ofFile f).forM (tell plan f)).run s with
        | (.ok _, after) => (.ok (), { after with handled := after.handled ++ [f.path] })
        | (.error e, after) => (.error e, after) := by
  simp only [file, run_bind, run_get, List.contains_iff_mem]
  split
  · rfl
  split
  · rfl
  rw [run_bind]
  rcases ((Event.ofFile f).forM (tell plan f)).run s with ⟨(e | _), after⟩ <;> rfl

theorem load_run (path : Path) (s : Session σ) :
    (load path).run s =
      match (Catalog.load s.workspace.files path).run s.catalog with
      | (.ok id, catalog) => (.ok id, { s with catalog })
      | (.error e, catalog) => (.error (.load e), { s with catalog }) := by
  simp only [load, run_bind, run_get]
  rcases (Catalog.load s.workspace.files path).run s.catalog with ⟨(e | id), catalog⟩ <;> rfl

theorem rootFile_run (plan : Plan σ) (path : Path) (s : Session σ) :
    (rootFile plan path).run s =
      if plan.skip.skips (skipName s.workspace.files s.catalog.root path) then
        (.ok (), { s with stats := s.stats.skip })
      else
        match (Catalog.load s.workspace.files path).run s.catalog with
        | (.error (.unreadable _ _), catalog) => (.ok (), { s with catalog, stats := s.stats.skip })
        | (.error e, catalog) => (.error (.load e), { s with catalog })
        | (.ok id, catalog) =>
          (((((catalog.graph.file? id).map (·.dependencies)).getD [] ++ [id]).filterMap
            catalog.graph.file?).forM (file plan)).run { s with catalog } := by
  simp only [rootFile, run_bind, run_get]
  split
  · rfl
  simp only [run_bind, run_tryCatch, run_map, load_run]
  rcases (Catalog.load s.workspace.files path).run s.catalog with ⟨(e | id), catalog⟩
  · cases e <;> rfl
  · rfl

/-! ### Walks -/

section Walks

variable {β γ : Type} {plan : Plan σ} {see : Path → Session σ → List β}
  {also : Path → Session σ → List γ}

/-- What `Q` says of a part of a run, from the state before it, its outcome and what is seen on the
way, can be told from its root files. -/
structure Walks (plan : Plan σ) (see : Path → Session σ → List β)
    (also : Path → Session σ → List γ)
    (Q : Session σ → Except RunError Unit × Session σ → List β → List γ → Prop) : Prop where
  nothing : ∀ s, Q s (.ok (), s) [] []
  rootFile : ∀ path s, Q s ((rootFile plan path).run s) (see path s) (also path s)
  append : ∀ {s now outcome xs ys xs' ys'}, Q s (.ok (), now) xs ys → Q now outcome xs' ys' →
    Q s outcome (xs ++ xs') (ys ++ ys')

namespace Walks

variable {Q : Session σ → Except RunError Unit × Session σ → List β → List γ → Prop}
  (h : Walks plan see also Q)

include h

theorem forM {α : Type} {act : α → Run σ Unit} {seen : α → Session σ → List β}
    {seen' : α → Session σ → List γ} (hact : ∀ a s, Q s ((act a).run s) (seen a s) (seen' a s))
    (items : List α) (s : Session σ) :
    Q s ((items.forM act).run s) (along act seen items s) (along act seen' items s) := by
  induction items generalizing s with
  | nil => exact h.nothing s
  | cons a rest ih =>
    have hfirst := hact a s
    rw [forM_run_cons, along, along]
    rcases hrun : (act a).run s with ⟨(e | _), now⟩
    · rw [hrun] at hfirst
      simpa only [List.append_nil] using hfirst
    · rw [hrun] at hfirst
      exact h.append hfirst (ih now)

theorem entry {descend : Path → Run σ Unit} {below : Path → Session σ → List β}
    {below' : Path → Session σ → List γ}
    (hbelow : ∀ path s, Q s ((descend path).run s) (below path s) (below' path s)) (dir : Path)
    (e : String × Node) (s : Session σ) :
    Q s ((Run.entry plan descend dir e).run s) (seenEntry plan see below dir e s)
      (seenEntry plan also below' dir e s) := by
  obtain ⟨name, node⟩ := e
  unfold Run.entry seenEntry
  by_cases hdot : name.toList.head? = some '.'
  · simp only [if_pos hdot]
    exact h.nothing s
  · simp only [if_neg hdot]
    cases node with
    | directory => exact hbelow (dir / name) s
    | file =>
      by_cases hext : (dir / name).extension? = some plan.schemaExt
      · simp only [if_pos hext]
        exact h.rootFile (dir / name) s
      · simp only [if_neg hext]
        exact h.nothing s
    | link => exact h.nothing s

theorem directory (depth : Nat) (dir : Path) (s : Session σ) :
    Q s ((Run.directory plan depth dir).run s) (seenBelow plan see depth dir s)
      (seenBelow plan also depth dir s) := by
  induction depth generalizing dir s with
  | zero => exact h.nothing s
  | succ depth ih =>
    simp only [Run.directory, run_bind, run_get, seenBelow]
    exact h.forM (h.entry ih dir) _ s

theorem root (path : Path) (s : Session σ) :
    Q s ((Run.root plan path).run s) (seenAtRoot plan see path s)
      (seenAtRoot plan also path s) := by
  simp only [Run.root, run_bind, run_get, seenAtRoot]
  split
  · exact h.directory FileSystem.maxPathSize path s
  · exact h.rootFile path s

theorem roots (roots : List Path) (s : Session σ) :
    Q s ((roots.forM (Run.root plan)).run s) (seen plan see roots s) (seen plan also roots s) :=
  h.forM h.root roots s

end Walks

end Walks

/-! ### Watching -/

/-- `watched` does what `act` does and also adds `log` to the log of calls. -/
def Watches {α : Type} (watched : Run (σ × List Call) α) (act : Run σ α)
    (log : Session σ → List Call) : Prop :=
  ∀ s calls, watched.run (s.logging calls) =
    ((act.run s).1, (act.run s).2.logging (calls ++ log s))

theorem watched_step_run (h : Hook) (step : Emit σ Unit) (w : Workspace σ) (calls : List Call) :
    (step.watched h).run (w.logging calls) =
      ((step.run w).1, (step.run w).2.logging (calls ++ [⟨h, failure? (step.run w).1⟩])) :=
  rfl

/-- The call that tells the target about an event. -/
def tellCalls (plan : Plan σ) (f : SchemaFile) (e : Event) (s : Session σ) : List Call :=
  [⟨.event f e, failure? ((tell plan f e).run s).1⟩]

theorem watches_tell (plan : Plan σ) (f : SchemaFile) (e : Event) :
    Watches (tell plan.watched f e) (tell plan f e) (tellCalls plan f e) := by
  intro s calls
  have hstep : (plan.watched.target.handle (s.logging calls).catalog.graph f e).run
      (s.logging calls).workspace = _ :=
    watched_step_run (.event f e) (plan.target.handle s.catalog.graph f e) s.workspace calls
  rw [tellCalls, tell_run, tell_run, hstep]
  rcases (plan.target.handle s.catalog.graph f e).run s.workspace with ⟨(err | _), w⟩ <;> rfl

theorem watches_forM {watched : α → Run (σ × List Call) Unit} {act : α → Run σ Unit}
    {log : α → Session σ → List Call} (h : ∀ a, Watches (watched a) (act a) (log a))
    (items : List α) : Watches (items.forM watched) (items.forM act) (along act log items) := by
  induction items with
  | nil =>
    intro s calls
    simp [along]
  | cons a rest ih =>
    intro s calls
    rw [forM_run_cons, forM_run_cons, h a s calls, along]
    rcases (act a).run s with ⟨(e | _), after⟩
    · simp
    · simpa using ih after (calls ++ log a s)

/-- The calls for a file. -/
def fileCalls (plan : Plan σ) (f : SchemaFile) (s : Session σ) : List Call :=
  if f.path ∈ s.handled ∨ plan.target.refuses f then []
  else along (tell plan f) (tellCalls plan f) (Event.ofFile f) s

theorem watches_file (plan : Plan σ) (f : SchemaFile) :
    Watches (file plan.watched f) (file plan f) (fileCalls plan f) := by
  intro s calls
  rw [file_run, file_run, fileCalls]
  by_cases hhandled : f.path ∈ s.handled
  · simp [hhandled, Session.logging]
  by_cases hrefused : plan.target.refuses f
  · simp [hhandled, hrefused, Session.logging, Plan.watched, Target.watched]
  · have htold := watches_forM (watches_tell plan f) (Event.ofFile f) s calls
    have hhandled' : f.path ∉ (s.logging calls).handled := hhandled
    have hrefused' : ¬ plan.watched.target.refuses f := hrefused
    rw [if_neg hhandled, if_neg hrefused, if_neg hhandled', if_neg hrefused', htold]
    rcases ((Event.ofFile f).forM (tell plan f)).run s with ⟨(e | _), after⟩ <;>
      simp [hhandled, hrefused, Session.logging]

/-- The calls at a root file. -/
def rootFileCalls (plan : Plan σ) (path : Path) (s : Session σ) : List Call :=
  match s.visit? plan path with
  | some v => along (file plan) (fileCalls plan) v.files { s with catalog := v.catalog }
  | none => []

theorem rootFile_run_some {path : Path} {v : Visit} (h : s.visit? plan path = some v) :
    (rootFile plan path).run s =
      (v.files.forM (file plan)).run { s with catalog := v.catalog } := by
  unfold Session.visit? at h
  rw [rootFile_run]
  split at h
  · cases h
  · next hskip =>
    rw [if_neg hskip]
    split at h
    · next id catalog hload =>
      obtain ⟨f, hf, rfl⟩ := Option.map_eq_some_iff.1 h
      simp [hload, hf, Visit.files]
    · cases h

/-- What a root file without a visit comes to: a result, the catalog and the statistics. -/
def missed (plan : Plan σ) (path : Path) (s : Session σ) : Except RunError Unit × Catalog × Stats :=
  if plan.skip.skips (skipName s.workspace.files s.catalog.root path) then
    (.ok (), s.catalog, s.stats.skip)
  else
    match (Catalog.load s.workspace.files path).run s.catalog with
    | (.error (.unreadable _ _), catalog) => (.ok (), catalog, s.stats.skip)
    | (.error e, catalog) => (.error (.load e), catalog, s.stats)
    | (.ok _, catalog) => (.ok (), catalog, s.stats)

theorem rootFile_run_none {path : Path} (h : s.visit? plan path = none) :
    (rootFile plan path).run s =
      ((missed plan path s).1,
        { s with catalog := (missed plan path s).2.1, stats := (missed plan path s).2.2 }) := by
  unfold Session.visit? at h
  rw [rootFile_run, missed]
  split at h
  · next hskip => rw [if_pos hskip, if_pos hskip]
  · next hskip =>
    rw [if_neg hskip, if_neg hskip]
    rcases hload : (Catalog.load s.workspace.files path).run s.catalog with ⟨(e | id), catalog⟩
    · cases e <;> rfl
    · have hnone : catalog.graph.file? id = none := by simpa [hload] using h
      simp [hnone]

/-- A root file without a visit leaves the catalog as it was, or as a load leaves it. -/
theorem catalog_of_missed {P : Catalog → Prop} {path : Path} (hs : P s.catalog)
    (hload : P ((Catalog.load s.workspace.files path).run s.catalog).2) :
    P (missed plan path s).2.1 := by
  unfold missed
  split
  · exact hs
  · rcases hrun : (Catalog.load s.workspace.files path).run s.catalog with ⟨(e | id), catalog⟩
    · rw [hrun] at hload
      cases e <;> exact hload
    · rw [hrun] at hload
      exact hload

theorem watches_rootFile (plan : Plan σ) (path : Path) :
    Watches (rootFile plan.watched path) (rootFile plan path) (rootFileCalls plan path) := by
  intro s calls
  rw [rootFileCalls]
  cases hvisit : s.visit? plan path with
  | some v =>
    -- Loading does not look at the notes of the target, so the log makes no difference to it.
    have hvisit' : (s.logging calls).visit? plan.watched path = some v := hvisit
    rw [rootFile_run_some hvisit, rootFile_run_some hvisit']
    exact watches_forM (watches_file plan) v.files { s with catalog := v.catalog } calls
  | none =>
    have hvisit' : (s.logging calls).visit? plan.watched path = none := hvisit
    have hmissed : missed plan.watched path (s.logging calls) = missed plan path s := rfl
    rw [rootFile_run_none hvisit, rootFile_run_none hvisit', hmissed]
    simp [Session.logging]

theorem watches_entry {descend' : Path → Run (σ × List Call) Unit} {descend : Path → Run σ Unit}
    {below : Path → Session σ → List Call}
    (h : ∀ path, Watches (descend' path) (descend path) (below path)) (dir : Path)
    (e : String × Node) :
    Watches (entry plan.watched descend' dir e) (entry plan descend dir e)
      (seenEntry plan (rootFileCalls plan) below dir e) := by
  intro s calls
  obtain ⟨name, node⟩ := e
  unfold entry seenEntry
  split
  · simp
  cases node with
  | directory => exact h (dir / name) s calls
  | file =>
    by_cases hext : (dir / name).extension? = some plan.schemaExt
    · have hext' : (dir / name).extension? = some plan.watched.schemaExt := hext
      simp only [if_pos hext, if_pos hext']
      exact watches_rootFile plan (dir / name) s calls
    · have hext' : (dir / name).extension? ≠ some plan.watched.schemaExt := hext
      simp [if_neg hext, if_neg hext']
  | link => simp

theorem watches_directory (plan : Plan σ) (depth : Nat) (dir : Path) :
    Watches (directory plan.watched depth dir) (directory plan depth dir)
      (seenBelow plan (rootFileCalls plan) depth dir) := by
  induction depth generalizing dir with
  | zero =>
    intro s calls
    simp [directory, seenBelow]
  | succ depth ih =>
    intro s calls
    simp only [directory, run_bind, run_get, seenBelow]
    exact watches_forM (watches_entry ih dir) _ s calls

theorem watches_root (plan : Plan σ) (path : Path) :
    Watches (root plan.watched path) (root plan path)
      (seenAtRoot plan (rootFileCalls plan) path) := by
  intro s calls
  simp only [root, run_bind, run_get, seenAtRoot]
  by_cases hdir : s.workspace.files.isDirectory path
  · have hdir' : (s.logging calls).workspace.files.isDirectory path = true := hdir
    rw [if_pos hdir, if_pos hdir, if_pos hdir']
    exact watches_directory plan FileSystem.maxPathSize path s calls
  · have hdir' : ¬ (s.logging calls).workspace.files.isDirectory path = true := hdir
    rw [if_neg hdir, if_neg hdir, if_neg hdir']
    exact watches_rootFile plan path s calls

/-! ### The files of a list that are new -/

/-- The files of a list that the target is told about when the paths `handled` are handled. -/
def todo (refuses : SchemaFile → Bool) : (handled : List Path) → List SchemaFile → List SchemaFile
  | _, [] => []
  | handled, f :: rest =>
    if f.path ∈ handled then todo refuses handled rest
    else if refuses f then todo refuses (f.path :: handled) rest
    else f :: todo refuses (f.path :: handled) rest

theorem todo_congr (refuses : SchemaFile → Bool) {handled handled' : List Path}
    (h : ∀ p, p ∈ handled ↔ p ∈ handled') (files : List SchemaFile) :
    todo refuses handled files = todo refuses handled' files := by
  induction files generalizing handled handled' with
  | nil => rfl
  | cons f rest ih =>
    have hcons : ∀ p, p ∈ f.path :: handled ↔ p ∈ f.path :: handled' := by simp [h]
    simp only [todo, h f.path, ih h, ih hcons]

theorem todo_append (refuses : SchemaFile → Bool) (handled : List Path)
    (files more : List SchemaFile) :
    todo refuses handled (files ++ more) =
      todo refuses handled files ++ todo refuses (files.map (·.path) ++ handled) more := by
  induction files generalizing handled with
  | nil => rfl
  | cons f rest ih =>
    -- The handled paths come in another order here, but only which ones they are counts.
    have hswap : todo refuses (rest.map (·.path) ++ f.path :: handled) more =
        todo refuses (f.path :: rest.map (·.path) ++ handled) more :=
      todo_congr refuses (fun p => by simp only [List.mem_append, List.mem_cons]; tauto) more
    simp only [List.cons_append, todo, List.map_cons, ih]
    split
    · next hmem =>
      congr 1
      exact todo_congr refuses (fun p => by simp only [List.mem_append, List.mem_cons]; grind) more
    split
    · rw [hswap]
      rfl
    · rw [hswap]
      rfl

theorem todo_of_loop (refuses : SchemaFile → Bool) (files before : List SchemaFile) :
    (List.eraseDupsBy.loop (fun f g => f.path == g.path) files before).filter
        (fun f => !refuses f) =
      before.reverse.filter (fun f => !refuses f) ++ todo refuses (before.map (·.path)) files := by
  induction files generalizing before with
  | nil => simp [List.eraseDupsBy.loop, todo]
  | cons f rest ih =>
    rw [List.eraseDupsBy.loop, todo]
    by_cases hmem : f.path ∈ before.map (·.path)
    · have hany : before.any (fun g => f.path == g.path) = true := by
        obtain ⟨g, hg, heq⟩ := List.mem_map.1 hmem
        exact List.any_eq_true.2 ⟨g, hg, by simp [heq]⟩
      rw [hany, if_pos hmem]
      exact ih before
    · have hany : before.any (fun g => f.path == g.path) = false := by
        rw [List.any_eq_false]
        intro g hg heq
        exact hmem (List.mem_map.2 ⟨g, hg, (eq_of_beq heq).symm⟩)
      rw [hany, if_neg hmem]
      simp only [ih]
      by_cases hrefused : refuses f <;> simp [hrefused]

theorem todo_nil (refuses : SchemaFile → Bool) (files : List SchemaFile) :
    todo refuses [] files = SchemaFile.told refuses files := by
  rw [SchemaFile.told, List.eraseDupsBy, todo_of_loop]
  rfl

theorem nodup_todo (refuses : SchemaFile → Bool) (handled : List Path) (files : List SchemaFile) :
    ((todo refuses handled files).map (·.path)).Nodup ∧
      ∀ p ∈ (todo refuses handled files).map (·.path), p ∉ handled := by
  induction files generalizing handled with
  | nil => exact ⟨List.nodup_nil, nofun⟩
  | cons f rest ih =>
    have hbehind (p : Path) (hp : p ∈ (todo refuses (f.path :: handled) rest).map (·.path)) :
        p ≠ f.path ∧ p ∉ handled := by
      have hnot := (ih (f.path :: handled)).2 p hp
      rw [List.mem_cons, not_or] at hnot
      exact hnot
    rw [todo]
    split
    · exact ih handled
    · next hnew =>
      split
      · exact ⟨(ih _).1, fun p hp => (hbehind p hp).2⟩
      · rw [List.map_cons, List.nodup_cons]
        refine ⟨⟨fun hmem => (hbehind _ hmem).1 rfl, (ih _).1⟩, fun p hp => ?_⟩
        rcases List.mem_cons.1 hp with rfl | hp
        · exact hnew
        · exact (hbehind p hp).2

/-! ### Calls follow visits -/

/-- `calls` are the calls of `hooks` in order, up to the first one that failed. -/
inductive Went : (hooks : List Hook) → (calls : List Call) → (failure : Option RunError) → Prop
  | passed (hooks : List Hook) : Went hooks (hooks.map Hook.passed) none
  | failed (before : List Hook) (h : Hook) (after : List Hook) (e : RunError) :
      Went (before ++ h :: after) (before.map Hook.passed ++ [⟨h, some e⟩]) (some e)

theorem Went.calls_eq {hooks : List Hook} (h : Went hooks calls none) :
    calls = hooks.map Hook.passed := by
  cases h
  rfl

theorem Went.append {hooks more : List Hook} {failure : Option RunError} (h : Went hooks calls none)
    (h' : Went more others failure) : Went (hooks ++ more) (calls ++ others) failure := by
  cases h
  cases h' with
  | passed =>
    rw [← List.map_append]
    exact .passed _
  | failed before h after e =>
    rw [← List.append_assoc, ← List.append_assoc, ← List.map_append]
    exact .failed _ h after e

theorem Went.extend {hooks : List Hook} (h : Went hooks calls (some e)) (more : List Hook) :
    Went (hooks ++ more) calls (some e) := by
  cases h with
  | failed before h after e =>
    rw [List.append_assoc]
    exact .failed before h (after ++ more) e

/-- The target was called for the new ones of `files`, up to the first call that failed. If none
failed, all of `files` are handled now. -/
structure Follows (plan : Plan σ) (s : Session σ) (files : List SchemaFile) (calls : List Call)
    (failure : Option RunError) (after : Session σ) : Prop where
  went : Went (SchemaFile.hooks (todo plan.target.refuses s.handled files)) calls failure
  handled : failure = none → ∀ p, p ∈ after.handled ↔ p ∈ s.handled ∨ p ∈ files.map (·.path)

theorem Follows.nil (h : after.handled = s.handled) : Follows plan s [] [] none after :=
  ⟨.passed [], fun _ p => by simp [h]⟩

theorem Follows.append {middle : Session σ} {files more : List SchemaFile}
    {failure : Option RunError} (h : Follows plan s files calls none middle)
    (h' : Follows plan middle more others failure after) :
    Follows plan s (files ++ more) (calls ++ others) failure after := by
  have hmiddle := h.handled rfl
  have htodo : todo plan.target.refuses s.handled (files ++ more) =
      todo plan.target.refuses s.handled files ++ todo plan.target.refuses middle.handled more := by
    rw [todo_append]
    congr 1
    exact todo_congr _ (fun p => by rw [hmiddle, List.mem_append, or_comm]) more
  constructor
  · rw [htodo, SchemaFile.hooks, List.flatMap_append]
    exact h.went.append h'.went
  · intro hnone p
    rw [h'.handled hnone, hmiddle, List.map_append, List.mem_append, or_assoc]

theorem Follows.extend {files : List SchemaFile} (h : Follows plan s files calls (some e) after)
    (more : List SchemaFile) : Follows plan s (files ++ more) calls (some e) after := by
  refine ⟨?_, fun hnone => nomatch hnone⟩
  rw [todo_append, SchemaFile.hooks, List.flatMap_append]
  exact h.went.extend _

theorem eq_error_of_failure {r : Except RunError α} (h : failure? r = some e) : r = .error e := by
  cases r with
  | ok => cases h
  | error => rw [Option.some.inj h]

theorem map_withLast (constants : List Constant) :
    (Event.withLast constants).map (fun (c, isLast) => Event.constant c isLast) =
      constants.mapIdx fun i c => .constant c (i + 1 == constants.length) := by
  induction constants with
  | nil => rfl
  | cons c rest ih =>
    rw [Event.withLast, List.map_cons, ih, List.mapIdx_cons]
    congr 1
    · cases rest <;> rfl
    · simp

theorem ofFile_eq_documented (f : SchemaFile) : Event.ofFile f = f.documented := by
  have hkept : ∀ d : Described, (!d.isSkipped) = (!d.ignored && !d.isDeprecated) := by
    simp [Described.isSkipped]
  have hmessage : Event.ofMessage = Message.documented := by
    funext m
    simp [Event.ofMessage, Message.documented, Message.kept, hkept]
  have henum : Event.ofEnumeration = Enumeration.documented := by
    funext e
    rw [Event.ofEnumeration, map_withLast]
    simp [Enumeration.documented, Enumeration.kept, hkept]
  simp [Event.ofFile, SchemaFile.documented, hkept, hmessage, henum]

theorem tell_handled (plan : Plan σ) (f : SchemaFile) (events : List Event) (s : Session σ) :
    ((events.forM (tell plan f)).run s).2.handled = s.handled := by
  induction events generalizing s with
  | nil => rfl
  | cons e rest ih =>
    rw [forM_run_cons, tell_run]
    rcases (plan.target.handle s.catalog.graph f e).run s.workspace with ⟨(err | _), w⟩
    · rfl
    · exact ih _

theorem tell_went (plan : Plan σ) (f : SchemaFile) (events : List Event) (s : Session σ) :
    Went (events.map (.event f)) (along (tell plan f) (tellCalls plan f) events s)
      (failure? ((events.forM (tell plan f)).run s).1) := by
  induction events generalizing s with
  | nil => exact .passed []
  | cons e rest ih =>
    rw [forM_run_cons, along, tellCalls]
    rcases (tell plan f e).run s with ⟨(err | _), after⟩
    · exact .failed [] (.event f e) (rest.map (.event f)) err
    · exact Went.append (.passed [.event f e]) (ih after)

theorem file_follows (plan : Plan σ) (f : SchemaFile) (s : Session σ) :
    Follows plan s [f] (fileCalls plan f s) (failure? ((file plan f).run s).1)
      ((file plan f).run s).2 := by
  rw [file_run, fileCalls]
  by_cases hhandled : f.path ∈ s.handled
  · have htodo : todo plan.target.refuses s.handled [f] = [] := by simp [todo, hhandled]
    simp only [hhandled, true_or, if_true]
    refine ⟨by rw [htodo]; exact .passed [], fun _ p => ?_⟩
    simp only [List.map_cons, List.map_nil, List.mem_singleton, iff_self_or]
    rintro rfl
    exact hhandled
  by_cases hrefused : plan.target.refuses f
  · have htodo : todo plan.target.refuses s.handled [f] = [] := by simp [todo, hhandled, hrefused]
    simp only [if_neg hhandled, hrefused, or_true, if_true]
    exact ⟨by rw [htodo]; exact .passed [], fun _ p => by simp⟩
  · have hwent := tell_went plan f (Event.ofFile f) s
    have hsame := tell_handled plan f (Event.ofFile f) s
    have hnew : ¬ (f.path ∈ s.handled ∨ plan.target.refuses f = true) :=
      not_or.2 ⟨hhandled, hrefused⟩
    rw [if_neg hhandled, if_neg hrefused, if_neg hnew]
    have hhooks : SchemaFile.hooks (todo plan.target.refuses s.handled [f]) =
        (Event.ofFile f).map (.event f) := by
      simp [todo, hhandled, hrefused, SchemaFile.hooks, ofFile_eq_documented]
    rcases hrun : ((Event.ofFile f).forM (tell plan f)).run s with ⟨(e | _), after⟩
    · rw [hrun] at hwent
      exact ⟨hhooks ▸ hwent, fun hnone => nomatch hnone⟩
    · rw [hrun] at hwent hsame
      refine ⟨hhooks ▸ hwent, fun _ p => ?_⟩
      simp [show after.handled = s.handled from hsame]

theorem files_follow (plan : Plan σ) (files : List SchemaFile) (s : Session σ) :
    Follows plan s files (along (file plan) (fileCalls plan) files s)
      (failure? ((files.forM (file plan)).run s).1) ((files.forM (file plan)).run s).2 := by
  induction files generalizing s with
  | nil => exact .nil rfl
  | cons f rest ih =>
    have hfile := file_follows plan f s
    rw [forM_run_cons, along]
    rcases hrun : (file plan f).run s with ⟨(e | _), after⟩
    · rw [hrun] at hfile
      rw [List.append_nil]
      exact hfile.extend rest
    · rw [hrun] at hfile
      exact hfile.append (ih after)

/-- A part of a run called its target for the files of its visits, up to the first call that
failed, and then failed itself. -/
def FollowsVisits (plan : Plan σ) (s : Session σ) (visits : List Visit) (calls : List Call)
    (outcome : Except RunError Unit × Session σ) : Prop :=
  ∃ failure, Follows plan s (visits.flatMap Visit.files) calls failure outcome.2 ∧
    ∀ e, failure = some e → outcome.1 = .error e

theorem FollowsVisits.nil {outcome : Except RunError Unit × Session σ}
    (h : outcome.2.handled = s.handled) : FollowsVisits plan s [] [] outcome :=
  ⟨none, .nil h, fun _ he => nomatch he⟩

theorem FollowsVisits.append {now : Session σ} {visits more : List Visit}
    {outcome : Except RunError Unit × Session σ}
    (h : FollowsVisits plan s visits calls (.ok (), now))
    (h' : FollowsVisits plan now more others outcome) :
    FollowsVisits plan s (visits ++ more) (calls ++ others) outcome := by
  obtain ⟨failure, hfollows, hfailed⟩ := h
  obtain ⟨failure', hrest, hfailed'⟩ := h'
  cases failure with
  | some e => exact nomatch hfailed e rfl
  | none =>
    refine ⟨failure', ?_, hfailed'⟩
    rw [List.flatMap_append]
    exact hfollows.append hrest

theorem rootFile_follows (plan : Plan σ) (path : Path) (s : Session σ) :
    FollowsVisits plan s (s.visit? plan path).toList (rootFileCalls plan path s)
      ((rootFile plan path).run s) := by
  rw [rootFileCalls]
  cases hvisit : s.visit? plan path with
  | none =>
    rw [rootFile_run_none hvisit]
    exact .nil rfl
  | some v =>
    rw [rootFile_run_some hvisit]
    have hfiles := files_follow plan v.files { s with catalog := v.catalog }
    refine ⟨_, ⟨?_, ?_⟩, fun e he => eq_error_of_failure he⟩
    · rw [Option.toList_some, List.flatMap_singleton]
      exact hfiles.went
    · rw [Option.toList_some, List.flatMap_singleton]
      exact hfiles.handled

theorem roots_follow (plan : Plan σ) (roots : List Path) (s : Session σ) :
    FollowsVisits plan s (s.visited plan roots) (Run.seen plan (rootFileCalls plan) roots s)
      ((roots.forM (root plan)).run s) := by
  have hwalks : Walks plan (fun path s => (s.visit? plan path).toList) (rootFileCalls plan)
      fun s outcome visits calls => FollowsVisits plan s visits calls outcome :=
    ⟨fun _ => .nil rfl, rootFile_follows plan, .append⟩
  exact hwalks.roots roots s

/-- The result of a session from that of its run and that of its end. -/
def conclude (result finished : Except RunError Unit) (stats : Stats) : Except RunError Stats :=
  match result, finished with
  | .error e, _ => .error e
  | .ok _, .error e => .error e
  | .ok _, .ok _ => .ok stats

theorem session_run {roots : List Path} {result : Except RunError Unit}
    (h : (roots.forM (root plan)).run s = (result, after)) :
    Session.run plan roots s =
      (conclude result (plan.target.finish.run after.workspace).1 after.stats,
        { after with workspace := (plan.target.finish.run after.workspace).2 }) := by
  simp only [Session.run, h, onTarget_run]
  rcases plan.target.finish.run after.workspace with ⟨(err | _), w⟩ <;> cases result <;> rfl

end EventOrderLemmas

open EventOrderLemmas

/-! ## 1. Watching changes nothing -/

/-- A watched run does exactly what the run does, and its log gets one entry for each call: first
the calls for events, then the one of `finish`. -/
theorem watched_run (plan : Plan σ) (roots : List Path) (s : Session σ) :
    ∃ ending, Session.run plan.watched roots (s.logging []) =
      ((Session.run plan roots s).1,
        (Session.run plan roots s).2.logging
          (Run.seen plan (rootFileCalls plan) roots s ++ [⟨.finish, ending⟩])) := by
  have hroots := watches_forM (watches_root plan) roots s []
  rcases hrun : (roots.forM (Run.root plan)).run s with ⟨result, after⟩
  rw [hrun, List.nil_append] at hroots
  have hfinish : plan.watched.target.finish.run
      (after.logging (Run.seen plan (rootFileCalls plan) roots s)).workspace = _ :=
    watched_step_run .finish plan.target.finish after.workspace _
  refine ⟨failure? (plan.target.finish.run after.workspace).1, ?_⟩
  rw [session_run hrun, session_run hroots]
  exact Prod.ext (congrArg (conclude result · after.stats) (congrArg Prod.fst hfinish))
    (congrArg (Session.mk after.catalog · after.handled after.stats) (congrArg Prod.snd hfinish))

/-! ## 2. Calls follow visits -/

/-- From any state, the calls for events are those for the new files among the visited ones, up to
the first call that fails; such a failure is the result of the run. -/
theorem calls_follow_visits (plan : Plan σ) (roots : List Path) (s : Session σ) :
    ∃ failure, Went
        (SchemaFile.hooks (todo plan.target.refuses s.handled
          ((s.visited plan roots).flatMap Visit.files)))
        (Run.seen plan (rootFileCalls plan) roots s) failure ∧
      ∀ e, failure = some e → (Session.run plan roots s).1 = .error e := by
  obtain ⟨failure, hfollows, hfailed⟩ := roots_follow plan roots s
  refine ⟨failure, hfollows.went, fun e he => ?_⟩
  have hresult := hfailed e he
  rcases hrun : (roots.forM (Run.root plan)).run s with ⟨result, after⟩
  rw [hrun] at hresult
  rw [session_run hrun, show result = .error e from hresult]
  rfl

/-! ## 3. Whole runs -/

/-- The calls of a run of a new session. Let the files told be those of the visits in order, without
later repetitions of a path and without the refused ones, and `hooks` their documented events.

Watching the run changes neither its result nor the session. Its last call is `finish`, whatever
happens before. The calls before that are `hooks` from the first on; they are all of `hooks` if the
run succeeds, and unless one of them fails. One that fails is the last of them, and its error is the
result of the run. -/
theorem run_calls (plan : Plan σ) (roots : List Path) (s : Session σ) (fresh : s.handled = []) :
    let hooks := SchemaFile.hooks
      (SchemaFile.told plan.target.refuses ((s.visited plan roots).flatMap Visit.files))
    ∃ calls ending,
      Session.run plan.watched roots (s.logging []) =
        ((Session.run plan roots s).1,
          (Session.run plan roots s).2.logging (calls ++ [⟨.finish, ending⟩])) ∧
      (∀ stats, (Session.run plan roots s).1 = .ok stats → calls = hooks.map Hook.passed) ∧
      (calls = hooks.map Hook.passed ∨
        ∃ before h after e, hooks = before ++ h :: after ∧
          calls = before.map Hook.passed ++ [⟨h, some e⟩] ∧
          (Session.run plan roots s).1 = .error e) := by
  intro hooks
  obtain ⟨ending, hwatched⟩ := watched_run plan roots s
  obtain ⟨failure, hwent, hfailed⟩ := calls_follow_visits plan roots s
  have hhooks : SchemaFile.hooks (todo plan.target.refuses s.handled
      ((s.visited plan roots).flatMap Visit.files)) = hooks := by
    rw [fresh, todo_nil]
  rw [hhooks] at hwent
  refine ⟨_, ending, hwatched, ?_⟩
  generalize hooks = expected at hwent
  generalize Run.seen plan (rootFileCalls plan) roots s = calls at hwent
  cases hwent with
  | passed => exact ⟨fun _ _ => rfl, .inl rfl⟩
  | failed before h after e =>
    have herror := hfailed e rfl
    refine ⟨fun stats hok => ?_, .inr ⟨before, h, after, e, rfl, rfl, herror⟩⟩
    rw [herror] at hok
    cases hok

/-! ### A session with an import -/

/-- A file with an enumeration that has one kept constant. -/
def importedFile : SchemaFile :=
  { SchemaFile.empty 0 ⟨"/s"⟩ ⟨"b"⟩ ⟨"/s/b"⟩ with
    enums := [⟨⟨"E", none, false⟩, 0, [⟨⟨"X", none, false⟩, 1, 0⟩, ⟨⟨"Y", none, true⟩, 2, 1⟩]⟩]
    definitions := ⟨[("E", ⟨0, .enumeration, 0⟩)], by decide⟩ }

/-- A file with a kept and an ignored message that imports the other one. -/
def importingFile : SchemaFile :=
  { SchemaFile.empty 1 ⟨"/s"⟩ ⟨"a"⟩ ⟨"/s/a"⟩ with
    messages := [⟨⟨"M", none, false⟩, 1, []⟩, ⟨⟨"N", none, true⟩, 1, []⟩]
    definitions := ⟨[("M", ⟨1, .message, 0⟩), ("N", ⟨1, .message, 1⟩)], by decide⟩
    dependencies := [0] }

/-- A plan whose target does nothing. -/
def quietPlan : Plan Unit :=
  ⟨⟨fun _ => false, fun _ _ _ => pure (), pure ()⟩, ⟨[]⟩, "proto"⟩

/-- A new session in which both files are loaded. -/
def importSession : Session Unit where
  catalog := ⟨⟨"/s"⟩, ⟨[importedFile, importingFile]⟩, [(⟨"/s/b"⟩, 0), (⟨"/s/a"⟩, 1)], []⟩
  workspace :=
    ⟨⟨.directory .full [("s", .directory .full [("a", .text ""), ("b", .text "")])], []⟩,
      Output.new ⟨"/o"⟩ "" "", ()⟩
  handled := []
  stats := .zero

theorem importSession_visited :
    (importSession.visited quietPlan [⟨"/s/a"⟩]).flatMap Visit.files =
      [importedFile, importingFile] := by
  have hsteps : importSession.workspace.files.isDirectory ⟨"/s/a"⟩ = false ∧
      Catalog.loadWithin importSession.workspace.files 1 ⟨"/s/a"⟩ importSession.catalog =
        some (.ok 1, importSession.catalog) := by
    decide +kernel
  obtain ⟨hfile, hload⟩ := hsteps
  have hvisit : importSession.visit? quietPlan ⟨"/s/a"⟩ =
      some ⟨importSession.catalog, importingFile⟩ := by
    rw [Session.visit?, Catalog.load_of_within hload]
    rfl
  rw [Session.visited, Run.seen, Run.along, Run.seenAtRoot, hfile, hvisit]
  rcases (Run.root quietPlan ⟨"/s/a"⟩).run importSession with ⟨(_ | _), _⟩ <;> rfl

theorem run_calls_of_import :
    importSession.handled = [] ∧
    (importSession.visited quietPlan [⟨"/s/a"⟩]).flatMap Visit.files =
      [importedFile, importingFile] ∧
    let run := Session.run quietPlan [⟨"/s/a"⟩] importSession
    let hooks := SchemaFile.hooks (SchemaFile.told quietPlan.target.refuses
      ((importSession.visited quietPlan [⟨"/s/a"⟩]).flatMap Visit.files))
    ∃ calls ending,
      Session.run quietPlan.watched [⟨"/s/a"⟩] (importSession.logging []) =
        (run.1, run.2.logging (calls ++ [⟨.finish, ending⟩])) ∧
      (∀ stats, run.1 = .ok stats → calls = hooks.map Hook.passed) ∧
      (calls = hooks.map Hook.passed ∨
        ∃ before h after e, hooks = before ++ h :: after ∧
          calls = before.map Hook.passed ++ [⟨h, some e⟩] ∧ run.1 = .error e) :=
  ⟨rfl, importSession_visited, run_calls quietPlan [⟨"/s/a"⟩] importSession rfl⟩

end SchemaGen
