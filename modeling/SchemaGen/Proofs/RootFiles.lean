import SchemaGen.Proofs.Collisions
import SchemaGen.Proofs.OutputStore

/-!
# Runs as lists of root files

A root is a file or a directory, and a directory stands for the schema files below it. Which these
are turns out only while the run goes on, but walking directories changes nothing. So a run does the
same as taking up, one after the other, the root files that it comes to (`Session.tried`), and if it
fails it does so at the last of them.

A file that a run has found in a directory is no directory when its turn comes, since writing files
turns no file into one. So the same files can be given as roots themselves.

Results:
1. `Session.retraces`: a run is the list of its root files; `Run.seen_eq_along`: what it sees it sees
   at these.
2. `RootFilesLemmas.takesFiles_tried`: the root files that a run takes up are files when their turn
   comes.
3. `load_error_stops_cleanly`: a run that fails to load a file leaves what the run over the root
   files before it leaves.
-/

namespace SchemaGen

variable {σ : Type}

/-! ## Definitions -/

/-- The root files that a run over `roots` takes up, in order, until it stops. -/
def Session.tried (plan : Plan σ) (roots : List Path) (s : Session σ) : List Path :=
  Run.seen plan (fun path _ => [path]) roots s

/-- The step fails for no reason that has to do with loading. -/
def Emit.LoadsNothing {α : Type} (step : Emit σ α) : Prop :=
  ∀ w e, (step.run w).1 ≠ .error (.load e)

/-- The run over `roots` stops at the root file behind `before`, which does not load. Up to there it
does what the run over `before` does, and after that nothing. -/
structure Session.StopsBehind (plan : Plan σ) (roots : List Path) (s : Session σ) (e : LoadError)
    (before : List Path) (path : Path) : Prop where
  tried : s.tried plan roots = before ++ [path]
  serious : e.isAdvisory = false
  /-- The run over `before` takes up all of it without an error, and then the file does not load. -/
  failed : ∃ now, (before.forM (Run.root plan)).run s = (.ok (), now) ∧
    s.tried plan before = before ∧
    ((Catalog.load now.workspace.files path).run now.catalog).1 = .error e
  closed : (Session.run plan roots s).2.workspace.output.current = none
  workspace : (Session.run plan roots s).2.workspace = (Session.run plan before s).2.workspace
  handled : (Session.run plan roots s).2.handled = (Session.run plan before s).2.handled
  stats : (Session.run plan roots s).2.stats = (Session.run plan before s).2.stats

/-! ## 1. Runs over root files -/

namespace RootFilesLemmas

open Run EventOrderLemmas

variable {plan : Plan σ} {α : Type}

/-- A part of a run from `s` on has taken up the root files `paths` one after the other, and if it
failed it did so at the last of them. -/
structure Retraced (plan : Plan σ) (s : Session σ) (outcome : Except RunError Unit × Session σ)
    (paths : List Path) : Prop where
  same : outcome = (paths.forM (rootFile plan)).run s
  last : ∀ {e final}, outcome = (.error e, final) →
    ∃ before path now, paths = before ++ [path] ∧
      (before.forM (rootFile plan)).run s = (.ok (), now) ∧
      (rootFile plan path).run now = (.error e, final)

/-- Wherever it begins, the part `act` of a run takes up the root files `paths`. -/
def Retraces (plan : Plan σ) (act : Run σ Unit) (paths : Session σ → List Path) : Prop :=
  ∀ s, Retraced plan s (act.run s) (paths s)

theorem along_append (act : α → Run σ Unit) (see : α → Session σ → List β) (xs ys : List α)
    (s : Session σ) :
    along act see (xs ++ ys) s = along act see xs s ++
      match (xs.forM act).run s with
      | (.ok _, now) => along act see ys now
      | (.error _, _) => [] := by
  induction xs generalizing s with
  | nil => rfl
  | cons x xs ih =>
    rw [List.cons_append, along, along, forM_run_cons]
    rcases (act x).run s with ⟨(e | _), now⟩
    · simp
    · simp only [ih, List.append_assoc]

/-- What a part of a run sees, it sees at the root files that it takes up. -/
theorem walks_retraced {β : Type} (see : Path → Session σ → List β) :
    Walks plan (fun path _ => [path]) see fun s outcome paths seen =>
      Retraced plan s outcome paths ∧ seen = along (rootFile plan) see paths s where
  nothing _ := ⟨⟨rfl, nofun⟩, rfl⟩
  rootFile path s := by
    refine ⟨⟨(forM_run_singleton (rootFile plan) path s).symm,
      fun h => ⟨[], path, s, rfl, rfl, h⟩⟩, ?_⟩
    rw [along]
    rcases (rootFile plan path).run s with ⟨(e | _), now⟩ <;> exact (List.append_nil _).symm
  append := by
    rintro s now outcome paths _ more _ ⟨hfirst, rfl⟩ ⟨hrest, rfl⟩
    refine ⟨⟨?_, fun hfailed => ?_⟩, ?_⟩
    · rw [forM_run_append, ← hfirst.same]
      exact hrest.same
    · obtain ⟨before, path, later, rfl, hbefore, hpath⟩ := hrest.last hfailed
      refine ⟨paths ++ before, path, later, (List.append_assoc _ _ _).symm, ?_, hpath⟩
      rw [forM_run_append, ← hfirst.same]
      exact hbefore
    · rw [along_append, ← hfirst.same]

/-- Nothing else is looked at. -/
def seeNothing (_ : Path) (_ : Session σ) : List Unit := []

theorem retraces_nothing : Retraces plan (pure ()) fun _ => [] :=
  fun s => ((walks_retraced seeNothing).nothing s).1

theorem retraces_rootFile (path : Path) : Retraces plan (rootFile plan path) fun _ => [path] :=
  fun s => ((walks_retraced seeNothing).rootFile path s).1

theorem retraces_directory (depth : Nat) (dir : Path) :
    Retraces plan (directory plan depth dir) (seenBelow plan (fun path _ => [path]) depth dir) :=
  fun s => ((walks_retraced seeNothing).directory depth dir s).1

theorem retraces_root (plan : Plan σ) (path : Path) :
    Retraces plan (root plan path) (seenAtRoot plan (fun path _ => [path]) path) :=
  fun s => ((walks_retraced seeNothing).root path s).1

end RootFilesLemmas

open RootFilesLemmas

/-- A run is the list of the root files that it takes up. -/
theorem Session.retraces (plan : Plan σ) (roots : List Path) :
    Retraces plan (roots.forM (Run.root plan)) (Session.tried plan roots) :=
  fun s => ((walks_retraced seeNothing).roots roots s).1

/-- What a run sees it sees at the root files that it takes up. -/
theorem Run.seen_eq_along {β : Type} (plan : Plan σ) (see : Path → Session σ → List β)
    (roots : List Path) (s : Session σ) :
    Run.seen plan see roots s = Run.along (Run.rootFile plan) see (s.tried plan roots) s :=
  ((walks_retraced see).roots roots s).2

/-! ## 2. Root files as roots -/

variable {fs : FileSystem} {dir : Path} {plan : Plan σ} {s : Session σ}

/-- A directory shows its entries if it may be listed. -/
theorem FileSystem.mem_list_iff {e : String × Node} :
    e ∈ fs.list dir ↔ ∃ d access entries, fs.Reaches .reach dir dir.steps d ∧
      fs.node? d = some (.directory access entries) ∧ access ≠ .none ∧ e ∈ entries := by
  have hfind : (∃ d access entries, fs.Reaches .reach dir dir.steps d ∧
      fs.node? d = some (.directory access entries) ∧ access ≠ .none ∧ e ∈ entries) ↔
      ∃ access entries, fs.find dir = .ok (.directory access entries) ∧ access ≠ .none ∧
        e ∈ entries := by
    simp only [FileSystem.find_eq_ok_iff]
    grind
  rw [hfind]
  unfold FileSystem.list
  split
  · next access entries hdir =>
    rw [hdir]
    by_cases hnone : access = .none <;> simp [hnone, List.mem_mergeSort]
  · next hdir => exact iff_of_false nofun fun ⟨access, entries, h, _⟩ => hdir access entries h

/-- The names in a directory lead to what it has under them, as far as that is no link. -/
theorem FileSystem.IsTidy.entry (h : fs.IsTidy) {name : String} {n : Node}
    (hmem : (name, n) ∈ fs.list dir) :
    ∃ d, fs.Reaches .reach dir dir.steps d ∧ IsPlainName name ∧
      fs.node? (d ++ [name]) = some n := by
  obtain ⟨d, access, entries, hd, hnode, -, hentry⟩ := FileSystem.mem_list_iff.1 hmem
  have hshape := FileSystem.shape?_of_node? hnode
  have hlookup := FileTreeLemmas.lookup_of_mem (h.nodup d access _ hshape) hentry
  refine ⟨d, hd, h.plain d access _ hshape name (List.mem_map.2 ⟨_, hentry, rfl⟩), ?_⟩
  rw [FileSystem.node?, FileTreeLemmas.at?_append, ← FileSystem.node?, hnode, Option.bind_some,
    FileTreeLemmas.at?_singleton]
  exact hlookup

/-- A file in a directory stays one while files are written. -/
theorem FileSystem.IsTidy.not_isDirectory {fs' : FileSystem} (h : fs.IsTidy) (hgrows : fs.Grows fs')
    {name : String} {access : Access} {contents : ByteArray}
    (hmem : (name, .file access contents) ∈ fs.list dir) : fs'.isDirectory (dir / name) = false := by
  obtain ⟨d, hd, hname, hnode⟩ := h.entry hmem
  obtain ⟨now, hfile⟩ := hgrows.file (FileSystem.shape?_of_node? hnode)
  have hlink : ¬ fs'.HasLink (d ++ [name]) := by
    rintro ⟨target, hlink⟩
    rw [hfile] at hlink
    cases hlink
  refine Bool.eq_false_iff.2 fun hdir => ?_
  obtain ⟨l, hl, _, names, hshape⟩ := FileSystem.isDirectory_iff.1 hdir
  obtain rfl := (hd.grows hgrows).child hname hlink hl
  rw [hfile] at hshape
  cases hshape

namespace RootFilesLemmas

open Run EventOrderLemmas RunInvariantLemmas

variable {plan : Plan σ}

/-- When its turn comes, each of `paths` leads to no directory. -/
def AsFiles (plan : Plan σ) : List Path → Session σ → Prop
  | [], _ => True
  | path :: rest, s => s.workspace.files.isDirectory path = false ∧
    ∀ now, (rootFile plan path).run s = (.ok (), now) → AsFiles plan rest now

variable {s : Session σ} {paths : List Path}

theorem root_run_of_file {path : Path} (h : s.workspace.files.isDirectory path = false) :
    (root plan path).run s = (rootFile plan path).run s := by
  simp only [root, run_bind, run_get, h]
  rfl

theorem roots_run_of_asFiles (h : AsFiles plan paths s) :
    (paths.forM (root plan)).run s = (paths.forM (rootFile plan)).run s := by
  induction paths generalizing s with
  | nil => rfl
  | cons path rest ih =>
    rw [forM_run_cons, forM_run_cons, root_run_of_file h.1]
    rcases hrun : (rootFile plan path).run s with ⟨(e | _), now⟩
    · rfl
    · exact ih (h.2 now hrun)

theorem tried_of_asFiles {now : Session σ} (h : AsFiles plan paths s)
    (hrun : (paths.forM (rootFile plan)).run s = (.ok (), now)) : s.tried plan paths = paths := by
  induction paths generalizing s with
  | nil => rfl
  | cons path rest ih =>
    have hseen : seenAtRoot plan (fun path _ => [path]) path s = [path] := by
      rw [seenAtRoot, if_neg (by simp [h.1])]
    rw [Session.tried, seen, along, hseen, root_run_of_file h.1]
    rw [forM_run_cons] at hrun
    rcases hfirst : (rootFile plan path).run s with ⟨(e | _), middle⟩
    · rw [hfirst] at hrun
      cases hrun
    · rw [hfirst] at hrun
      exact congrArg (path :: ·) (ih (h.2 middle hfirst) hrun)

theorem asFiles_append {more : List Path} :
    AsFiles plan (paths ++ more) s ↔ AsFiles plan paths s ∧
      ∀ now, (paths.forM (rootFile plan)).run s = (.ok (), now) → AsFiles plan more now := by
  induction paths generalizing s with
  | nil => exact ⟨fun h => ⟨trivial, fun now hnow => (Prod.mk.inj hnow).2 ▸ h⟩, fun h => h.2 s rfl⟩
  | cons path rest ih =>
    rw [List.cons_append, AsFiles, AsFiles, and_assoc]
    refine and_congr_right fun _ => ?_
    constructor
    · intro h
      refine ⟨fun now hnow => (ih.1 (h now hnow)).1, fun now hnow => ?_⟩
      rw [forM_run_cons] at hnow
      rcases hfirst : (rootFile plan path).run s with ⟨(e | _), middle⟩
      · rw [hfirst] at hnow
        cases hnow
      · rw [hfirst] at hnow
        exact (ih.1 (h middle hfirst)).2 now hnow
    · rintro ⟨hrest, hmore⟩ middle hfirst
      refine ih.2 ⟨hrest middle hfirst, fun now hnow => hmore now ?_⟩
      rw [forM_run_cons, hfirst]
      exact hnow

/-- What a target does to the files through the handle keeps them tidy and lets them grow. -/
theorem kept_of_operates (h : ∀ g f e, (plan.target.handle g f e).Operates) (fs : FileSystem) :
    plan.Keeps (fun _ => True) fun w => fs.Grows w.files ∧ w.files.IsTidy := by
  refine ⟨fun _ _ _ _ => trivial, fun g f e w hw => ?_⟩
  obtain ⟨ops, hops⟩ := h g f e w
  have hfiles : ((plan.target.handle g f e).run w).2.files = (Operation.after ops w.bare).files :=
    congrArg Workspace.files hops
  obtain ⟨touched, hchanges⟩ := OutputStoreLemmas.changes_after ops w.bare
  rw [hfiles]
  exact ⟨hw.1.trans (hchanges.grows hw.2.root), hchanges.tidy hw.2⟩

section Walks

variable (hops : ∀ g f e, (plan.target.handle g f e).Operates)

include hops

theorem grown_of_rootFiles {s : Session σ} (htidy : s.workspace.files.IsTidy) (paths : List Path) :
    s.workspace.files.Grows ((paths.forM (rootFile plan)).run s).2.workspace.files ∧
      ((paths.forM (rootFile plan)).run s).2.workspace.files.IsTidy :=
  (holding_forM (holding_rootFile (kept_of_operates hops s.workspace.files)) paths s
    ⟨trivial, .refl _, htidy⟩).1.2

/-- The part of a run takes up only paths that lead to no directories then. -/
def TakesFiles (plan : Plan σ) (paths : Session σ → List Path) : Prop :=
  ∀ s, s.workspace.files.IsTidy → AsFiles plan (paths s) s

/-- Entries of a directory are looked at one after the other, while the file system grows. -/
theorem asFiles_entries {descend : Path → Run σ Unit} {below : Path → Session σ → List Path}
    (hruns : ∀ path, Retraces plan (descend path) (below path))
    (hbelow : ∀ path, TakesFiles plan (below path)) {dir : Path} {fs : FileSystem}
    (hfs : fs.IsTidy) {entries : List (String × Node)} (hentries : entries ⊆ fs.list dir)
    {s : Session σ} (hgrows : fs.Grows s.workspace.files) (htidy : s.workspace.files.IsTidy) :
    AsFiles plan (along (entry plan descend dir)
      (seenEntry plan (fun path _ => [path]) below dir) entries s) s := by
  induction entries generalizing s with
  | nil => trivial
  | cons e rest ih =>
    have hentry := (walks_retraced seeNothing).entry (fun path s => ⟨hruns path s, rfl⟩) dir e s
    have hsame := hentry.1.same
    rw [along, asFiles_append]
    constructor
    · obtain ⟨name, node⟩ := e
      unfold seenEntry
      split
      · trivial
      · cases node with
        | directory => exact hbelow (dir / name) s htidy
        | file =>
          by_cases hext : (dir / name).extension? = some plan.schemaExt
          · simp only [if_pos hext]
            exact ⟨hfs.not_isDirectory hgrows (hentries List.mem_cons_self), fun _ _ => trivial⟩
          · simp only [if_neg hext]
            trivial
        | link => trivial
    · intro now hnow
      obtain ⟨hmore, htidy'⟩ := grown_of_rootFiles hops htidy
        (seenEntry plan (fun path _ => [path]) below dir e s)
      rw [hnow] at hmore htidy' hsame
      rw [hsame]
      exact ih (fun x hx => hentries (List.mem_cons_of_mem _ hx)) (hgrows.trans hmore) htidy'

theorem takesFiles_directory (depth : Nat) (dir : Path) :
    TakesFiles plan (seenBelow plan (fun path _ => [path]) depth dir) := by
  induction depth generalizing dir with
  | zero => exact fun _ _ => trivial
  | succ depth ih =>
    intro s htidy
    exact asFiles_entries hops (retraces_directory depth) ih htidy (List.Subset.refl _) (.refl _)
      htidy

theorem takesFiles_root (path : Path) :
    TakesFiles plan (seenAtRoot plan (fun path _ => [path]) path) := by
  intro s htidy
  rw [seenAtRoot]
  by_cases hdir : s.workspace.files.isDirectory path
  · rw [if_pos hdir]
    exact takesFiles_directory hops FileSystem.maxPathSize path s htidy
  · rw [if_neg hdir]
    exact ⟨by simpa using hdir, fun _ _ => trivial⟩

theorem takesFiles_tried (roots : List Path) : TakesFiles plan (Session.tried plan roots) := by
  induction roots with
  | nil => exact fun _ _ => trivial
  | cons path rest ih =>
    intro s htidy
    have hsame := (retraces_root plan path s).same
    rw [Session.tried, seen, along, asFiles_append]
    refine ⟨takesFiles_root hops path s htidy, fun now hnow => ?_⟩
    obtain ⟨-, htidy'⟩ := grown_of_rootFiles hops htidy
      (seenAtRoot plan (fun path _ => [path]) path s)
    rw [hnow] at htidy' hsame
    rw [hsame]
    exact ih now htidy'

end Walks

end RootFilesLemmas

/-! ## 3. Errors of loading -/

namespace Emit

variable {α β : Type}

theorem LoadsNothing.bind {x : Emit σ α} {f : α → Emit σ β} (hx : x.LoadsNothing)
    (hf : ∀ a, (f a).LoadsNothing) : (x >>= f).LoadsNothing := by
  intro w e
  have hfirst := hx w e
  rw [run_bind]
  rcases hrun : x.run w with ⟨(err | a), now⟩
  · rw [hrun] at hfirst
    exact fun heq => hfirst (congrArg Except.error (Except.error.inj heq))
  · exact hf a now e

theorem loadsNothing_of_ok {step : Emit σ α} (h : ∀ w, ∃ a, (step.run w).1 = .ok a) :
    step.LoadsNothing := by
  intro w e
  obtain ⟨a, ha⟩ := h w
  rw [ha]
  exact nofun

theorem loadsNothing_pure (a : α) : (pure a : Emit σ α).LoadsNothing :=
  loadsNothing_of_ok fun _ => ⟨a, rfl⟩

theorem loadsNothing_get : (get : Emit σ (Workspace σ)).LoadsNothing :=
  loadsNothing_of_ok fun w => ⟨w, rfl⟩

theorem loadsNothing_close : (close : Emit σ Unit).LoadsNothing :=
  loadsNothing_of_ok fun _ => ⟨(), rfl⟩

theorem loadsNothing_line (text : String) : (line text : Emit σ Unit).LoadsNothing := by
  intro w e
  rw [line_run]
  cases w.output.current <;> exact nofun

theorem loadsNothing_prepare (path : Path) (source : Option SchemaFile) :
    (prepare path source : Emit σ Unit).LoadsNothing := by
  intro w e
  rw [prepare_run]
  rcases (Disk.opening path).run w.settled with ⟨(cause | l), files⟩ <;> exact nofun

theorem steady_loadsNothing : Steady fun _ (step : Emit σ _) => step.LoadsNothing :=
  ⟨loadsNothing_pure, fun _ _ _ => nofun, LoadsNothing.bind, loadsNothing_line, loadsNothing_close⟩

end Emit

open Emit in
theorem Java.loadsNothing_handle (g : Graph) (f : SchemaFile) (e : Event) :
    (Java.handle g f e).LoadsNothing := by
  refine steady_loadsNothing.java fun d hd => ?_
  subst hd
  exact loadsNothing_get.bind fun w => loadsNothing_prepare _ (some f)

namespace Rust

open Emit

theorem loadsNothing_handle (g : Graph) (f : SchemaFile) (e : Event) :
    (Rust.handle g f e).LoadsNothing := by
  refine steady_loadsNothing.rust fun he w => ?_
  subst he
  rw [handle_beginFile_run]
  exact loadsNothing_prepare _ (some f) { w with notes := w.notes ++ childrenOf f }

theorem loadsNothing_finish : finish.LoadsNothing := by
  have hindex (i : List String × List String) : (writeIndex i.1 i.2).LoadsNothing :=
    loadsNothing_get.bind fun _ => (loadsNothing_prepare _ none).bind fun _ =>
      LoadsNothing.bind (steady_loadsNothing.lines _) fun _ => loadsNothing_close
  intro w
  rw [finish_run]
  exact steady_loadsNothing.forM hindex _ _

end Rust

/-- A target that does all it does to files through the handle, leaves it closed, and does not
load. -/
structure Target.Works (t : Target σ) : Prop where
  operates : ∀ g f e, (t.handle g f e).Operates
  loadsNothing : ∀ g f e, (t.handle g f e).LoadsNothing
  finishes : t.finish.LoadsNothing
  closes : ∀ w, (t.finish.run w).2.output.current = none

theorem Java.works : Java.target.Works :=
  ⟨operates_handle, loadsNothing_handle, Emit.loadsNothing_close, fun _ => rfl⟩

theorem Rust.works : Rust.target.Works :=
  ⟨operates_handle, loadsNothing_handle, loadsNothing_finish, closed_finish⟩

namespace RootFilesLemmas

open Run EventOrderLemmas

variable {plan : Plan σ}

theorem failed_of_conclude {result finished : Except RunError Unit} {stats : Stats} {e : RunError}
    (h : conclude result finished stats = .error e) : result = .error e ∨ finished = .error e := by
  rcases result with err | _
  · cases h
    exact .inl rfl
  · rcases finished with err | _
    · cases h
      exact .inr rfl
    · cases h

/-- Telling the target about files raises no error of loading. -/
theorem load_ne_of_files (h : ∀ g f e, (plan.target.handle g f e).LoadsNothing)
    (files : List SchemaFile) (s : Session σ) (e : LoadError) :
    ((files.forM (file plan)).run s).1 ≠ .error (.load e) := by
  have hforM {α : Type} {act : α → Run σ Unit}
      (hact : ∀ a s, ((act a).run s).1 ≠ .error (.load e)) (items : List α) (s : Session σ) :
      ((items.forM act).run s).1 ≠ .error (.load e) := by
    induction items generalizing s with
    | nil => exact nofun
    | cons a rest ih =>
      have hfirst := hact a s
      rw [forM_run_cons]
      rcases hrun : (act a).run s with ⟨(err | _), now⟩
      · rw [hrun] at hfirst
        exact hfirst
      · exact ih now
  have htell (f : SchemaFile) (event : Event) (s : Session σ) :
      ((tell plan f event).run s).1 ≠ .error (.load e) := by
    have hevent := h s.catalog.graph f event s.workspace e
    rw [tell_run]
    rcases hrun : (plan.target.handle s.catalog.graph f event).run s.workspace with ⟨(err | _), w⟩
    · rw [hrun] at hevent
      exact hevent
    · exact nofun
  refine hforM (fun f s => ?_) files s
  have htold := hforM (htell f) (Event.ofFile f) s
  rw [file_run]
  split
  · exact nofun
  split
  · exact nofun
  · rcases hrun : ((Event.ofFile f).forM (tell plan f)).run s with ⟨(err | _), now⟩
    · rw [hrun] at htold
      exact htold
    · exact nofun

/-- Where a root file raises an error of loading, it has not loaded, and nothing was done for it. -/
theorem load_of_rootFile (h : ∀ g f e, (plan.target.handle g f e).LoadsNothing) {path : Path}
    {s final : Session σ} {e : LoadError}
    (hrun : (rootFile plan path).run s = (.error (.load e), final)) :
    e.isAdvisory = false ∧ ((Catalog.load s.workspace.files path).run s.catalog).1 = .error e ∧
      final.workspace = s.workspace ∧ final.handled = s.handled ∧ final.stats = s.stats := by
  rw [rootFile_run] at hrun
  split at hrun
  · cases hrun
  · rcases hload : (Catalog.load s.workspace.files path).run s.catalog with ⟨(err | id), catalog⟩
    · rw [hload] at hrun
      cases err <;> cases hrun <;> exact ⟨rfl, rfl, rfl, rfl, rfl⟩
    · rw [hload] at hrun
      exact absurd (congrArg Prod.fst hrun) (load_ne_of_files h _ _ e)

end RootFilesLemmas

/-- A run that fails to load a root file stops there. -/
theorem Session.stopsBehind (h : plan.target.Works) {roots : List Path}
    (htidy : s.workspace.files.IsTidy) {e : LoadError}
    (hrun : (Session.run plan roots s).1 = .error (.load e)) :
    ∃ before path, s.StopsBehind plan roots e before path := by
  rcases hroots : (roots.forM (Run.root plan)).run s with ⟨result, final⟩
  have hfinal := EventOrderLemmas.session_run hroots
  obtain rfl : result = .error (.load e) := by
    rw [hfinal] at hrun
    exact (failed_of_conclude hrun).resolve_right (h.finishes final.workspace e)
  obtain ⟨before, path, now, htried, hbefore, hpath⟩ :=
    (Session.retraces plan roots s).last hroots
  -- The files before the failing one are no directories either when they are given as roots.
  have hfiles : AsFiles plan before s := by
    have htaken := takesFiles_tried h.operates roots s htidy
    rw [htried, asFiles_append] at htaken
    exact htaken.1
  have hshort := (roots_run_of_asFiles hfiles).trans hbefore
  obtain ⟨hserious, hload, hworkspace, hhandled, hstats⟩ := load_of_rootFile h.loadsNothing hpath
  have hbehind := EventOrderLemmas.session_run hshort
  refine ⟨before, path, htried, hserious, ⟨now, hshort, tried_of_asFiles hfiles hbefore, hload⟩,
    ?_, ?_, ?_, ?_⟩
  · rw [hfinal]
    exact h.closes final.workspace
  · rw [hfinal, hbehind, hworkspace]
  · rw [hfinal, hbehind]
    exact hhandled
  · rw [hfinal, hbehind]
    exact hstats

namespace RootFilesLemmas

open CollisionsLemmas

theorem files_of_output {settings : Settings} {extension : String} {fs fs' : FileSystem}
    {o : Output} (h : (settings.output extension).run fs = (.ok o, fs')) :
    fs.Changes fs' [] ∧ ∃ entries, fs'.find settings.outDir = .ok (.directory .full entries) := by
  unfold Settings.output at h
  obtain ⟨_, made, hmake, h⟩ := run_bind_eq_ok h
  obtain ⟨_, now, hget, h⟩ := run_bind_eq_ok h
  cases hget
  have hchanges := Disk.makeDirectories_changes settings.outDir fs
  rw [adapt_run_eq_ok hmake] at hchanges
  split at h
  · cases h
  · next entries hfind =>
    cases h
    exact ⟨hchanges, entries, hfind⟩
  · cases h

end RootFilesLemmas

/-- A session starts with the files as they were, and with an output root. -/
theorem Session.files_of_start {settings : Settings} {target : Target σ} {extension : String}
    {notes : σ} {fs' : FileSystem}
    (h : (Session.start settings dir target extension notes).run fs = (.ok (plan, s), fs')) :
    s.workspace.files = fs' ∧ fs.Changes fs' [] ∧
      ∃ entries, fs'.find settings.outDir = .ok (.directory .full entries) := by
  obtain ⟨catalog, output, skip, -, houtput, -, rfl⟩ := Session.start_ok h
  exact ⟨rfl, files_of_output houtput⟩

/-- A run that fails to load a file stops cleanly. Of the root files that it takes up, the one that
does not load is the last, and the ones before it can be given as roots: that run takes up just
these. The failed run leaves the files, the handle and the counts as that run does, and the handle
is closed. So all that was generated before is there in full, and nothing else was written. -/
theorem load_error_stops_cleanly (settings : Settings) (dir : Path) (fs : FileSystem)
    (tidy : fs.IsTidy) (roots : List Path) (e : LoadError) :
    (∀ plan s fs',
      (Session.start settings dir Java.target Java.extension ()).run fs = (.ok (plan, s), fs') →
      (Session.run plan roots s).1 = .error (.load e) →
      ∃ before path, s.StopsBehind plan roots e before path) ∧
    ∀ plan s fs',
      (Session.start settings dir Rust.target Rust.extension []).run fs = (.ok (plan, s), fs') →
      (Session.run plan roots s).1 = .error (.load e) →
      ∃ before path, s.StopsBehind plan roots e before path := by
  have hstops {τ : Type} {target : Target τ} (hworks : target.Works) {extension : String} {notes : τ}
      {plan : Plan τ} {s : Session τ} {fs' : FileSystem}
      (hstart : (Session.start settings dir target extension notes).run fs = (.ok (plan, s), fs'))
      (hrun : (Session.run plan roots s).1 = .error (.load e)) :
      ∃ before path, s.StopsBehind plan roots e before path := by
    obtain ⟨hplan, -⟩ := Session.of_start hstart
    obtain ⟨hfiles, hchanges, -⟩ := Session.files_of_start hstart
    refine Session.stopsBehind (hplan ▸ hworks) ?_ hrun
    rw [hfiles]
    exact hchanges.tidy tidy
  exact ⟨fun _ _ _ hstart hrun => hstops Java.works hstart hrun,
    fun _ _ _ hstart hrun => hstops Rust.works hstart hrun⟩

/-! ### A file with a missing import -/

/-- A file with a message, and one that imports what is not there. -/
def halfBroken : List (String × Node) :=
  [("a", .text "package p; message M \x7b \x7d"), ("b", .text "import \"x\";")]

theorem isTidy_halfBroken : (schemaSystem halfBroken).IsTidy :=
  FileSystem.isTidy_of_places ⟨.full, _, rfl⟩ (by decide +kernel)

/-- The second of two root files does not load, and the first is left as if it had been alone. -/
theorem load_error_stops_cleanly_halfBroken :
    (∃ plan s fs', (Session.start twinSettings ⟨"/s"⟩ Java.target Java.extension ()).run
        (schemaSystem halfBroken) = (.ok (plan, s), fs') ∧
      (Session.run plan [⟨"/s/a"⟩, ⟨"/s/b"⟩] s).1 = .error (.load (.unresolvedImport "b" "x")) ∧
      ∃ before path, s.StopsBehind plan [⟨"/s/a"⟩, ⟨"/s/b"⟩] (.unresolvedImport "b" "x") before
        path) ∧
    ∃ plan s fs', (Session.start twinSettings ⟨"/s"⟩ Rust.target Rust.extension []).run
        (schemaSystem halfBroken) = (.ok (plan, s), fs') ∧
      (Session.run plan [⟨"/s/a"⟩, ⟨"/s/b"⟩] s).1 = .error (.load (.unresolvedImport "b" "x")) ∧
      ∃ before path, s.StopsBehind plan [⟨"/s/a"⟩, ⟨"/s/b"⟩] (.unresolvedImport "b" "x") before
        path := by
  obtain ⟨hjava, hrust⟩ := load_error_stops_cleanly twinSettings ⟨"/s"⟩ (schemaSystem halfBroken)
    isTidy_halfBroken [⟨"/s/a"⟩, ⟨"/s/b"⟩] (.unresolvedImport "b" "x")
  have hjavaRun : (Session.run (twinPlan Java.target) [⟨"/s/a"⟩, ⟨"/s/b"⟩]
      (schemaSession Java.extension () halfBroken)).1 = .error (.load (.unresolvedImport "b" "x")) :=
    Session.error_of_within 1 (by decide +kernel)
  have hrustRun : (Session.run (twinPlan Rust.target) [⟨"/s/a"⟩, ⟨"/s/b"⟩]
      (schemaSession Rust.extension [] halfBroken)).1 = .error (.load (.unresolvedImport "b" "x")) :=
    Session.error_of_within 1 (by decide +kernel)
  exact ⟨⟨_, _, _, start_schemas _ _ _ halfBroken, hjavaRun,
      hjava _ _ _ (start_schemas _ _ _ halfBroken) hjavaRun⟩,
    _, _, _, start_schemas _ _ _ halfBroken, hrustRun,
      hrust _ _ _ (start_schemas _ _ _ halfBroken) hrustRun⟩

end SchemaGen
