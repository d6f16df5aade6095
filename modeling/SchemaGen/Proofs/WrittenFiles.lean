import SchemaGen.Proofs.Buffering
import SchemaGen.Proofs.RunInvariant
import SchemaGen.Target.JavaSource
import SchemaGen.Target.RustSource

/-!
# Which files a run opens

Targets open generated files at a few events and write lines at all others. So the files that a
successful run opens can be told from the files that it tells its target about: for Java the source
files of their kept definitions, for Rust their source files and then the module indexes.

Results:
1. `Emit.Opens`: what single steps open, and what steps in a row open.
2. `Java.written_of_run`: the files of a run for Java.
3. `Rust.written_of_run`: the files of a run for Rust.
-/

namespace SchemaGen

/-! ## Definitions -/

/-- What opening files and writing lines leaves alone. -/
def Workspace.frame {σ : Type} (w : Workspace σ) : Path × String × σ :=
  (w.output.root, w.output.extension, w.notes)

/-- Begun in `w`, the step keeps the frame, and if it succeeds it has opened `paths`. -/
structure Emit.Opens {σ α : Type} (step : Emit σ α) (w : Workspace σ) (paths : List Path) :
    Prop where
  frame : (step.run w).2.frame = w.frame
  written : ∀ a, (step.run w).1 = .ok a →
    (step.run w).2.output.written = w.output.written ++ paths

/-- The step opens no file. -/
def Emit.Quiet {σ α : Type} (step : Emit σ α) : Prop :=
  ∀ w, step.Opens w []

/-- What `P` says of steps holds of those that write to the open file at most. -/
structure Emit.Steady {σ : Type} (P : (α : Type) → Emit σ α → Prop) : Prop where
  nothing : ∀ {α : Type} (a : α), P α (pure a)
  fail : ∀ {α : Type} (e : TypeError), P α (throw (.type e))
  bind : ∀ {α β : Type} {x : Emit σ α} {f : α → Emit σ β},
    P α x → (∀ a, P β (f a)) → P β (x >>= f)
  line : ∀ text, P Unit (line text)
  close : P Unit close

/-- The names of the definitions that something is generated for, in order. -/
def SchemaFile.keptNames (f : SchemaFile) : List String :=
  (f.messages.filter (!·.isSkipped)).map (·.name) ++ (f.enums.filter (!·.isSkipped)).map (·.name)

/-- The directory of the Java sources of a file. -/
def Java.directory (root : Path) (f : SchemaFile) : Path :=
  root.join (Path.ofPackage (Java.packageOf f))

/-- The Java source of the definition `name` of a file. -/
def Java.sourcePath (root : Path) (extension : String) (f : SchemaFile) (name : String) : Path :=
  Java.directory root f / (name ++ extension)

/-- The index of the modules in a directory. -/
def Rust.indexPath (root : Path) (extension : String) (directory : List String) : Path :=
  directory.foldl (· / ·) root / ("mod" ++ extension)

/-! ## 1. Steps -/

namespace Emit.Steady

variable {σ : Type} {P : (α : Type) → Emit σ α → Prop} (h : Steady P)

include h

variable {α : Type}

theorem forM {act : α → Emit σ Unit} (hact : ∀ a, P Unit (act a)) (items : List α) :
    P Unit (items.forM act) := by
  induction items with
  | nil => exact h.nothing ()
  | cons a rest ih => exact h.bind (hact a) fun _ => ih

theorem mapM {β : Type} {act : α → Emit σ β} (hact : ∀ a, P β (act a)) (items : List α) :
    P (List β) (items.mapM act) := by
  induction items with
  | nil => exact h.nothing []
  | cons a rest ih =>
    rw [List.mapM_cons]
    exact h.bind (hact a) fun b => h.bind ih fun bs => h.nothing (b :: bs)

theorem lines (texts : List String) : P Unit (lines texts) :=
  h.forM h.line texts

theorem fieldType (words : Vocabulary) (g : Graph) (f : Field) :
    P Rendered (fieldType words g f) := by
  unfold Emit.fieldType
  split
  · exact h.nothing _
  · exact h.fail _

end Emit.Steady

variable {g : Graph} {f : SchemaFile} {e : Event} {σ : Type}

/-- For Java only the beginning of a definition does more than write to the open file. -/
theorem Emit.Steady.java {P : (α : Type) → Emit Unit α → Prop} (h : Steady P)
    (hfirst : ∀ d, e = .beginDefinition d → P Unit (Java.handle g f e)) :
    P Unit (Java.handle g f e) := by
  cases e with
  | beginDefinition d => exact hfirst d rfl
  | beginMessage _ | endMessage _ | beginEnum _ | constant _ _ | endEnum _ _ => exact h.lines _
  | field x => exact h.bind (h.lines _) fun _ => h.bind (h.fieldType _ g x) fun r => h.line _
  | endDefinition d => exact h.close
  | _ => exact h.nothing ()

/-- For Rust only the beginning of a file does. -/
theorem Emit.Steady.rust {P : (α : Type) → Emit (List Rust.Child) α → Prop} (h : Steady P)
    (hfirst : e = .beginFile → P Unit (Rust.handle g f e)) : P Unit (Rust.handle g f e) := by
  cases e with
  | beginFile => exact hfirst rfl
  | beginMessage _ | beginEnum _ | constant _ _ | endEnum _ _ => exact h.lines _
  | field x => exact h.bind (h.fieldType _ g x) fun r => h.lines _
  | endMessage m =>
    refine h.bind (h.mapM (fun x => ?_) m.kept) fun defaults => h.lines _
    exact h.bind (h.fieldType _ g x) fun r => h.nothing _
  | endFile => exact h.close
  | _ => exact h.nothing ()

namespace Emit

variable {σ α β : Type}

variable {w : Workspace σ} {paths : List Path} {x : Emit σ α} {f : α → Emit σ β}

theorem Opens.bind {more : List Path} (hx : x.Opens w paths)
    (hf : ∀ a, (x.run w).1 = .ok a → (f a).Opens (x.run w).2 more) :
    (x >>= f).Opens w (paths ++ more) := by
  obtain ⟨hframe, hwritten⟩ := hx
  rcases hrun : x.run w with ⟨(e | a), after⟩
  · rw [hrun] at hframe
    refine ⟨?_, fun b hb => ?_⟩
    · rw [run_bind, hrun]
      exact hframe
    · rw [run_bind, hrun] at hb
      cases hb
  · rw [hrun] at hframe hwritten hf
    obtain ⟨hframe', hwritten'⟩ := hf a rfl
    refine ⟨?_, fun b hb => ?_⟩
    · rw [run_bind, hrun]
      exact hframe'.trans hframe
    · rw [run_bind, hrun] at hb ⊢
      rw [hwritten' b hb, hwritten a rfl, List.append_assoc]

theorem Opens.notes {step : Emit σ α} (h : step.Opens w paths) : (step.run w).2.notes = w.notes :=
  congrArg (·.2.2) h.frame

theorem Quiet.bind (hx : x.Quiet) (hf : ∀ a, (f a).Quiet) : (x >>= f).Quiet :=
  fun w => (hx w).bind fun a _ => hf a _

theorem quiet_pure (a : α) : (pure a : Emit σ α).Quiet :=
  fun _ => ⟨rfl, fun _ _ => (List.append_nil _).symm⟩

theorem quiet_throw (e : RunError) : (throw e : Emit σ α).Quiet :=
  fun _ => ⟨rfl, nofun⟩

theorem quiet_get : (get : Emit σ (Workspace σ)).Quiet :=
  fun _ => ⟨rfl, fun _ _ => (List.append_nil _).symm⟩

/-- A step may depend on the workspace that it begins in. -/
theorem Opens.ofGet {f : Workspace σ → Emit σ α} (h : (f w).Opens w paths) :
    (get >>= f).Opens w paths :=
  (quiet_get w).bind fun w' hw' => by
    cases hw'
    exact h

theorem quiet_close : (close : Emit σ Unit).Quiet :=
  fun _ => ⟨rfl, fun _ _ => (List.append_nil _).symm⟩

theorem quiet_line (text : String) : (line text : Emit σ Unit).Quiet := by
  intro w
  have hrun := line_run text w
  cases hcurrent : w.output.current with
  | none =>
    rw [hcurrent] at hrun
    exact ⟨by rw [hrun], fun a ha => by rw [hrun] at ha; cases ha⟩
  | some file =>
    rw [hcurrent] at hrun
    obtain ⟨out, pending, -, hnow⟩ := Workspace.type_pushed hcurrent [text]
    exact ⟨by rw [hrun, hnow]; rfl,
      fun a _ => by rw [hrun, hnow]; exact (List.append_nil _).symm⟩

/-- Steps in a row open what each of them opens. -/
theorem opens_forM {act : α → Emit σ Unit} {paths : α → List Path} (items : List α)
    (h : ∀ a w', w'.frame = w.frame → (act a).Opens w' (paths a)) :
    (items.forM act).Opens w (items.flatMap paths) := by
  induction items generalizing w with
  | nil => exact quiet_pure () w
  | cons a rest ih =>
    have hfirst := h a w rfl
    refine hfirst.bind fun _ _ => ih fun a' w' hw' => h a' w' ?_
    rw [hw', hfirst.frame]

theorem steady_quiet : Steady fun _ (step : Emit σ _) => step.Quiet :=
  ⟨quiet_pure, fun _ => quiet_throw _, Quiet.bind, quiet_line, quiet_close⟩

theorem opens_prepare (path : Path) (source : Option SchemaFile) (w : Workspace σ) :
    (prepare path source).Opens w [path] := by
  have hprepare := prepare_run path source w
  rcases hopening : (Disk.opening path).run w.settled with ⟨(cause | l), files⟩ <;>
    simp only [hopening] at hprepare
  · constructor <;> rw [hprepare]
    · rfl
    · exact nofun
  · obtain ⟨out, pending, -, hnow⟩ :=
      Workspace.type_pushed (w := w.opened files path l) rfl (w.output.head source)
    constructor <;> rw [hprepare, hnow]
    · rfl
    · exact fun _ _ => rfl

end Emit

/-- The place and the extension of generated files. -/
def Workspace.WritesTo {σ : Type} (root : Path) (extension : String) (w : Workspace σ) : Prop :=
  w.output.root = root ∧ w.output.extension = extension

theorem Workspace.WritesTo.of_frame {root : Path} {extension : String} {w w' : Workspace σ}
    (h : w.WritesTo root extension) (hframe : w'.frame = w.frame) : w'.WritesTo root extension :=
  ⟨(congrArg (·.1) hframe).trans h.1, (congrArg (·.2.1) hframe).trans h.2⟩

/-- A successful run goes through all its roots, and then the target finishes; only the workspace
changes then. -/
theorem Session.run_ok {plan : Plan σ} {roots : List Path} {s : Session σ} {stats : Stats}
    (h : (Session.run plan roots s).1 = .ok stats) :
    ∃ after, (roots.forM (Run.root plan)).run s = (.ok (), after) ∧
      plan.target.finish.run after.workspace =
        (.ok (), (Session.run plan roots s).2.workspace) ∧
      (Session.run plan roots s).2.catalog = after.catalog ∧ stats = after.stats := by
  rcases hrun : (roots.forM (Run.root plan)).run s with ⟨result, after⟩
  rw [EventOrderLemmas.session_run hrun] at h ⊢
  rcases hfinish : plan.target.finish.run after.workspace with ⟨(e | _), w⟩
  · rw [hfinish] at h
    cases result <;> cases h
  · rw [hfinish] at h
    cases result with
    | error e => cases h
    | ok =>
      cases h
      exact ⟨after, rfl, hfinish, rfl, rfl⟩

/-! ## 2. Java -/

namespace Java

/-- The files that are opened at an event. -/
def opened (root : Path) (extension : String) (f : SchemaFile) : Event → List Path
  | .beginDefinition d => [sourcePath root extension f d.name]
  | _ => []

theorem opens_handle (g : Graph) (f : SchemaFile) (e : Event) (w : Workspace Unit) :
    (handle g f e).Opens w (opened w.output.root w.output.extension f e) := by
  by_cases hfirst : ∃ d, e = .beginDefinition d
  · obtain ⟨d, rfl⟩ := hfirst
    exact .ofGet (Emit.opens_prepare _ (some f) w)
  · have hopened : opened w.output.root w.output.extension f e = [] := by
      unfold opened
      split
      · exact absurd ⟨_, rfl⟩ hfirst
      · rfl
    rw [hopened]
    exact Emit.steady_quiet.java (fun d hd => absurd ⟨d, hd⟩ hfirst) w

theorem adds (root : Path) (extension : String) :
    target.Adds (Workspace.WritesTo root extension) (·.output.written) (opened root extension) where
  kept g f e w hw := hw.of_frame (opens_handle g f e w).frame
  added g f e w hw hok := by
    obtain ⟨rfl, rfl⟩ := hw
    exact (opens_handle g f e w).written () hok

section Files

variable (root : Path) (extension : String) (f : SchemaFile)

theorem opened_message (m : Message) :
    (Event.ofMessage m).flatMap (opened root extension f) =
      [sourcePath root extension f m.name] := by
  have hfields : (m.kept.map Event.field).flatMap (opened root extension f) = [] := by
    rw [List.flatMap_map]
    exact List.flatMap_eq_nil_iff.2 fun _ _ => rfl
  rw [Event.ofMessage, List.cons_append, List.cons_append, List.flatMap_cons, List.flatMap_cons,
    List.flatMap_append, hfields]
  rfl

theorem opened_enumeration (e : Enumeration) :
    (Event.ofEnumeration e).flatMap (opened root extension f) =
      [sourcePath root extension f e.name] := by
  have hconstants : (Event.withLast e.kept).flatMap
      (fun x => opened root extension f (.constant x.1 x.2)) = [] :=
    List.flatMap_eq_nil_iff.2 fun _ _ => rfl
  simp only [Event.ofEnumeration, List.cons_append, List.flatMap_cons, List.flatMap_append,
    List.flatMap_map, hconstants]
  rfl

theorem opened_file :
    f.documented.flatMap (opened root extension f) =
      f.keptNames.map (sourcePath root extension f) := by
  have hmessages : ((f.messages.filter (!·.isSkipped)).flatMap Event.ofMessage).flatMap
      (opened root extension f) =
        ((f.messages.filter (!·.isSkipped)).map (·.name)).map (sourcePath root extension f) := by
    simp only [List.flatMap_assoc, opened_message, List.map_map]
    exact List.flatMap_pure_eq_map _ _
  have henums : ((f.enums.filter (!·.isSkipped)).flatMap Event.ofEnumeration).flatMap
      (opened root extension f) =
        ((f.enums.filter (!·.isSkipped)).map (·.name)).map (sourcePath root extension f) := by
    simp only [List.flatMap_assoc, opened_enumeration, List.map_map]
    exact List.flatMap_pure_eq_map _ _
  rw [← EventOrderLemmas.ofFile_eq_documented, Event.ofFile, SchemaFile.keptNames, List.map_append]
  simp only [List.flatMap_append, List.flatMap_cons, hmessages, henums, List.cons_append]
  simp [opened]

end Files

/-- A successful run of a new session opens the source files of the kept definitions of the files
told. -/
theorem written_of_run {plan : Plan Unit} (hplan : plan.target = target) {roots : List Path}
    {s : Session Unit} {stats : Stats} (fresh : s.handled = [])
    (h : (Session.run plan roots s).1 = .ok stats) :
    (Session.run plan roots s).2.workspace.output.written =
      s.workspace.output.written ++ (s.told plan roots).flatMap fun f =>
        f.keptNames.map (sourcePath s.workspace.output.root s.workspace.output.extension f) := by
  obtain ⟨after, hrun, hended, -, -⟩ := Session.run_ok h
  rw [hplan] at hended
  have hworkspace : (Session.run plan roots s).2.workspace = _ := (congrArg Prod.snd hended).symm
  have hadds := adds s.workspace.output.root s.workspace.output.extension
  rw [← hplan] at hadds
  obtain ⟨-, hwritten⟩ := hadds.run fresh ⟨rfl, rfl⟩ hrun
  rw [hworkspace, show (target.finish.run after.workspace).2.output.written = _ from
    (Emit.quiet_close after.workspace).written () (congrArg Prod.fst hended), List.append_nil,
    hwritten]
  simp only [opened_file]

end Java

/-! ## 3. Rust -/

namespace Rust

/-- The files that are opened at an event, without the indexes at the end. -/
def opened (root : Path) (extension : String) (f : SchemaFile) : Event → List Path
  | .beginFile => [sourcePath root extension f]
  | _ => []

/-- The modules that are noted down at an event. -/
def noted (f : SchemaFile) : Event → List Child
  | .beginFile => childrenOf f
  | _ => []

variable {e : Event} {plan : Plan (List Child)} {roots : List Path} {s : Session (List Child)}
  {root : Path} {f : SchemaFile} {w : Workspace (List Child)} {after : Session (List Child)}

theorem opened_of_ne {extension : String} (h : e ≠ .beginFile) :
    opened root extension f e = [] := by
  unfold opened
  split
  · exact absurd rfl h
  · rfl

theorem noted_of_ne (h : e ≠ .beginFile) : noted f e = [] := by
  unfold noted
  split
  · exact absurd rfl h
  · rfl

theorem handle_beginFile_run (g : Graph) (f : SchemaFile) (w : Workspace (List Child)) :
    (handle g f .beginFile).run w =
      (Emit.prepare (sourcePath w.output.root w.output.extension f) (some f)).run
        { w with notes := w.notes ++ childrenOf f } := by
  simp only [handle, run_bind, run_get, run_modify]

theorem quiet_handle (g : Graph) (f : SchemaFile) (h : e ≠ .beginFile) : (handle g f e).Quiet :=
  Emit.steady_quiet.rust fun he => absurd he h

theorem writesTo_handle {extension : String} (g : Graph) (f : SchemaFile) (e : Event)
    (h : w.WritesTo root extension) : ((handle g f e).run w).2.WritesTo root extension := by
  by_cases he : e = .beginFile
  · subst he
    rw [handle_beginFile_run]
    have hnoted : Workspace.WritesTo root extension { w with notes := w.notes ++ childrenOf f } := h
    exact hnoted.of_frame (Emit.opens_prepare _ _ _).frame
  · exact h.of_frame (quiet_handle g f he w).frame

theorem adds_written (root : Path) (extension : String) :
    target.Adds (Workspace.WritesTo root extension) (·.output.written) (opened root extension) where
  kept g f e w hw := writesTo_handle g f e hw
  added g f e w hw hok := by
    obtain ⟨rfl, rfl⟩ := hw
    by_cases he : e = .beginFile
    · subst he
      have hrun : (target.handle g f .beginFile).run w = _ := handle_beginFile_run g f w
      rw [hrun] at hok ⊢
      exact (Emit.opens_prepare _ _ _).written () hok
    · rw [opened_of_ne he]
      exact (quiet_handle g f he w).written () hok

theorem adds_notes (root : Path) (extension : String) :
    target.Adds (Workspace.WritesTo root extension) (·.notes) noted where
  kept g f e w hw := writesTo_handle g f e hw
  added g f e w _ _ := by
    by_cases he : e = .beginFile
    · subst he
      have hrun : (target.handle g f .beginFile).run w = _ := handle_beginFile_run g f w
      rw [hrun]
      exact (Emit.opens_prepare _ (some f) { w with notes := w.notes ++ childrenOf f }).notes
    · rw [noted_of_ne he, List.append_nil]
      exact (quiet_handle g f he w).notes

/-- Only the first event of a file counts. -/
theorem flatMap_documented {β : Type} (mark : Event → List β) (f : SchemaFile)
    (h : ∀ e, e ≠ .beginFile → mark e = []) : f.documented.flatMap mark = mark .beginFile := by
  rw [← EventOrderLemmas.ofFile_eq_documented, Event.ofFile, List.cons_append, List.cons_append,
    List.flatMap_cons, List.flatMap_eq_nil_iff.2, List.append_nil]
  intro e he
  refine h e fun heq => ?_
  subst heq
  simp [Event.ofMessage, Event.ofEnumeration] at he

/-- The modules that files need. -/
def neededBy (files : List SchemaFile) : List Child :=
  files.flatMap childrenOf

theorem opens_writeIndex (directory names : List String) (w : Workspace (List Child)) :
    (writeIndex directory names).Opens w
      [indexPath w.output.root w.output.extension directory] := by
  unfold writeIndex
  refine .ofGet ?_
  show Emit.Opens _ w ([indexPath w.output.root w.output.extension directory] ++ [])
  refine (Emit.opens_prepare _ none w).bind fun _ _ => ?_
  exact (Emit.steady_quiet.lines _).bind (fun _ => Emit.quiet_close) _

/-- The workspace in which the indexes are written. -/
def atEnd (w : Workspace (List Child)) : Workspace (List Child) :=
  { w.closed with notes := [] }

theorem finish_run (w : Workspace (List Child)) :
    finish.run w = ((indexes w.notes).forM fun i => writeIndex i.1 i.2).run (atEnd w) := by
  simp only [finish, run_bind, run_get, run_modify, Emit.close, atEnd, Workspace.closed]

/-- The end of a session that writes the given indexes. -/
def finishWith (given : List (List String × List String)) : Emit (List Child) Unit := do
  modify atEnd
  given.forM fun i => writeIndex i.1 i.2

theorem finish_eq_finishWith {notes : List Child} {given : List (List String × List String)}
    (h : indexes notes = given) (w : Workspace (List Child)) (hw : w.notes = notes) :
    finish.run w = (finishWith given).run w := by
  rw [finish_run, hw, h]
  rfl

theorem opens_indexes (w : Workspace (List Child)) :
    Emit.Opens ((indexes w.notes).forM fun i => writeIndex i.1 i.2) (atEnd w)
      ((indexes w.notes).flatMap fun i =>
        [indexPath w.output.root w.output.extension i.1]) := by
  refine Emit.opens_forM _ fun i w' hw' => ?_
  have hroot : w'.output.root = w.output.root := congrArg (·.1) hw'
  have hextension : w'.output.extension = w.output.extension := congrArg (·.2.1) hw'
  rw [← hroot, ← hextension]
  exact opens_writeIndex i.1 i.2 w'

theorem written_of_finish (h : (finish.run w).1 = .ok ()) :
    (finish.run w).2.output.written = w.output.written ++
      (indexes w.notes).map fun i => indexPath w.output.root w.output.extension i.1 := by
  rw [finish_run] at h ⊢
  rw [(opens_indexes w).written () h]
  exact congrArg (w.output.written ++ ·) (List.flatMap_pure_eq_map _ _)

/-- Nothing is noted down when a run has ended. -/
theorem notes_of_finish (w : Workspace (List Child)) : (finish.run w).2.notes = [] := by
  rw [finish_run]
  exact (opens_indexes w).notes

/-- When a run has gone through all its roots, the modules of the files told are noted down. -/
theorem notes_of_emitted (hplan : plan.target = target)
    (hrun : (roots.forM (Run.root plan)).run s = (.ok (), after)) :
    after.workspace.notes = s.workspace.notes ++ neededBy (s.emitted plan roots) := by
  have hadds := adds_notes s.workspace.output.root s.workspace.output.extension
  rw [← hplan] at hadds
  obtain ⟨-, hneeded⟩ := hadds.emitted ⟨rfl, rfl⟩ hrun
  have hnoted (f : SchemaFile) : f.documented.flatMap (noted f) = childrenOf f :=
    flatMap_documented _ f fun e he => noted_of_ne he
  simp only [hnoted] at hneeded
  exact hneeded

theorem notes_of_run (hplan : plan.target = target) (fresh : s.handled = [])
    (hnotes : s.workspace.notes = [])
    (hrun : (roots.forM (Run.root plan)).run s = (.ok (), after)) :
    after.workspace.notes = neededBy (s.told plan roots) := by
  rw [notes_of_emitted hplan hrun, hnotes, List.nil_append, Session.emitted_of_fresh fresh]

/-- A successful run of a new session opens the source files of the files told and then the indexes
of the modules that these need. -/
theorem written_of_run (hplan : plan.target = target) {stats : Stats} (fresh : s.handled = [])
    (hnotes : s.workspace.notes = []) (h : (Session.run plan roots s).1 = .ok stats) :
    (Session.run plan roots s).2.workspace.output.written =
      s.workspace.output.written ++
        (s.told plan roots).map (sourcePath s.workspace.output.root s.workspace.output.extension) ++
        (indexes (neededBy (s.told plan roots))).map fun i =>
          indexPath s.workspace.output.root s.workspace.output.extension i.1 := by
  obtain ⟨after, hrun, hended, -, -⟩ := Session.run_ok h
  rw [hplan] at hended
  have hworkspace : (Session.run plan roots s).2.workspace = _ := (congrArg Prod.snd hended).symm
  have hadds := adds_written s.workspace.output.root s.workspace.output.extension
  rw [← hplan] at hadds
  obtain ⟨hto, hwritten⟩ := hadds.run fresh ⟨rfl, rfl⟩ hrun
  have hneeded := notes_of_run hplan fresh hnotes hrun
  have hopened (f : SchemaFile) : f.documented.flatMap
      (opened s.workspace.output.root s.workspace.output.extension f) =
        [sourcePath s.workspace.output.root s.workspace.output.extension f] :=
    flatMap_documented _ f fun e he => opened_of_ne he
  simp only [hopened] at hwritten
  rw [hworkspace, show (target.finish.run after.workspace).2.output.written = _ from
    written_of_finish (congrArg Prod.fst hended), hwritten, hneeded, hto.1, hto.2]
  congr 2
  exact List.flatMap_pure_eq_map _ _

end Rust

end SchemaGen
