import SchemaGen.Proofs.WrittenFiles
import Mathlib.Data.List.TakeWhile

/-!
# The output handle as a store of files

The output handle is used by preparing files, writing lines, closing and dropping. What has become
of the operations is their history: files that were opened with the lines that they begin with,
lines that were written, and so on. The history alone tells which file is open, which files have been
opened, and the contents of every file: the lines of its last opening. While a file is open, some of
its lines may still wait in the buffer. When the handle is closed, they have all been written.

All that a run does with its files it does through the handle, so this holds of whole runs, and at
the end of a run the handle is closed.

Results:
1. `outcome_spec`, `contents_after`: the history tells the state of the handle and of the files.
2. `through_after`: the buffer makes no difference to the history.
3. `output_is_store`: sequences of operations, and whole runs of both targets.
-/

namespace SchemaGen

/-! ## Definitions -/

/-- Something that is done with the output handle. -/
inductive Operation where
  | prepare (path : Path) (source : Option SchemaFile)
  | line (text : String)
  | close
  /-- The handle goes out of use. -/
  | drop

/-- What has become of an operation. -/
inductive Outcome where
  /-- A file was opened, and these lines were written to it at once. -/
  | opened (file : OutputFile) (head : List String)
  /-- A file could not be opened. -/
  | refused
  | wrote (text : String)
  /-- No file was open for the line. -/
  | lost
  | closed
deriving DecidableEq

namespace Operation

variable {σ : Type}

/-- The operation as a step of generating code. -/
def step : Operation → Emit σ Unit
  | prepare path source => Emit.prepare path source
  | line text => Emit.line text
  | close => Emit.close
  | drop => Emit.drop

/-- The workspace after some operations, whatever became of them. -/
def after (ops : List Operation) (w : Workspace σ) : Workspace σ :=
  ops.foldl (fun w op => (op.step.run w).2) w

theorem after_append (ops more : List Operation) (w : Workspace σ) :
    after (ops ++ more) w = after more (after ops w) :=
  List.foldl_append

/-- What becomes of an operation. -/
def outcome (w : Workspace σ) : Operation → Outcome
  | prepare path source =>
    match (Emit.prepare path source).run w with
    | (.ok _, now) => now.output.file?.elim .refused (.opened · (w.output.head source))
    | (.error _, _) => .refused
  | line text =>
    match ((Emit.line text : Emit σ Unit).run w).1 with
    | .ok _ => .wrote text
    | .error _ => .lost
  | close => .closed
  | drop => .closed

/-- What becomes of operations, one after the other. -/
def history : List Operation → Workspace σ → List Outcome
  | [], _ => []
  | op :: ops, w => op.outcome w :: history ops (op.step.run w).2

end Operation

/-- The outcomes that an operation can have. -/
inductive Operation.Yields (o : Output) : Operation → Outcome → Prop where
  | opened (path : Path) (source : Option SchemaFile) (l : Location) :
    Yields o (.prepare path source) (.opened ⟨path, l⟩ (o.head source))
  | refused (path : Path) (source : Option SchemaFile) : Yields o (.prepare path source) .refused
  | wrote (text : String) : Yields o (.line text) (.wrote text)
  | lost (text : String) : Yields o (.line text) .lost
  | closed : Yields o .close .closed
  | dropped : Yields o .drop .closed

namespace Outcome

/-- Whether the outcome is that of a line. -/
def isLine : Outcome → Bool
  | wrote _ | lost => true
  | _ => false

/-- The line that was written. -/
def line? : Outcome → Option String
  | wrote text => some text
  | _ => none

/-- The file that was opened. -/
def opened? : Outcome → Option OutputFile
  | opened file _ => some file
  | _ => none

/-- The file that is open after a history: the one opened last, if only lines came after it. -/
def openAfter (history : List Outcome) : Option OutputFile :=
  (history.reverse.dropWhile isLine).head?.bind opened?

/-- The lines that a history begins with. -/
def linesFirst (history : List Outcome) : List String :=
  (history.takeWhile isLine).filterMap line?

/-- The lines that were written to `l` when it was opened for the last time. -/
def linesOf (l : Location) : List Outcome → Option (List String)
  | [] => none
  | o :: rest => (linesOf l rest).or <|
    match o with
    | opened file head => if file.location = l then some (head ++ linesFirst rest) else none
    | _ => none

end Outcome

/-! ## 1. Histories -/

/-- What an operation does when it comes to an outcome. The files are meant as they are once all that
waits in the buffer has been written. -/
inductive Outcome.Does {σ : Type} (w : Workspace σ) : Outcome → Workspace σ → Prop where
  | opened {now : Workspace σ} (file : OutputFile) (head : List String)
    (current : now.output.file? = some file)
    (written : now.output.written = w.output.written ++ [file.path])
    (kept : ∀ l, l ≠ file.location → now.settled.contents? l = w.settled.contents? l)
    (contents : now.settled.contents? file.location = some (Output.bytes head))
    (reaches : w.files.HasDirectory [] →
      now.files.Reaches .reach file.path file.path.steps file.location) :
    Does w (.opened file head) now
  | refused {now : Workspace σ} (current : now.output.current = none)
    (written : now.output.written = w.output.written)
    (kept : ∀ l, now.files.contents? l = w.settled.contents? l) : Does w .refused now
  | wrote {now : Workspace σ} (text : String) (file : OpenFile)
    (current : w.output.current = some file) (pushed : w.Pushed file (Output.text [text]) now) :
    Does w (.wrote text) now
  | lost (current : w.output.current = none) : Does w .lost w
  | closed : Does w .closed w.closed

namespace OutputStoreLemmas

open Outcome

variable {σ : Type}

theorem settled_changes (w : Workspace σ) : ∃ touched, w.files.Changes w.settled touched := by
  cases h : w.output.current with
  | none => exact ⟨[], Workspace.settled_of_closed h ▸ .refl _ _⟩
  | some file => exact ⟨_, Workspace.settled_of_open h ▸ w.files.append_changes _ _⟩

/-- Nothing waits for a file that is not open. -/
theorem contents?_settled (w : Workspace σ) {l : Location}
    (hl : w.output.file?.map (·.location) ≠ some l) :
    w.settled.contents? l = w.files.contents? l := by
  cases h : w.output.current with
  | none => rw [Workspace.settled_of_closed h]
  | some file =>
    rw [Output.file?, h] at hl
    rw [Workspace.settled_of_open h]
    refine (w.files.append_changes file.location file.pending).contents l fun hmem => hl ?_
    rw [List.mem_singleton.1 hmem]
    rfl

theorem does_opened {w : Workspace σ} {files : FileSystem} {path : Path} {l : Location}
    (hopening : (Disk.opening path).run w.settled = (.ok l, files)) (head : List String) :
    let now := (w.opened files path l).type head
    now.output.tool = w.output.tool ∧ Does w (.opened ⟨path, l⟩ head) now ∧
      ∃ touched, w.files.Changes now.files touched := by
  intro now
  obtain ⟨touched, hwritten⟩ := settled_changes w
  obtain ⟨hopened, -, hreaches⟩ := Disk.opening_of_ok hopening
  have hpushed := Workspace.type_pushed (w := w.opened files path l) rfl head
  obtain ⟨hchanges, hshape, -⟩ := hpushed.of_opening hopening
  obtain ⟨htool, hmore⟩ : now.output.tool = w.output.tool ∧ files.Changes now.files [l] := by
    obtain ⟨out, pending, -, hnow⟩ := hpushed
    simp only [now, hnow]
    exact ⟨rfl, files.append_changes l out⟩
  refine ⟨htool, .opened _ _ hpushed.file? hpushed.written
    (fun k hk => hchanges.contents k (by simpa using hk)) (FileSystem.contents?_of_full hshape)
    fun hroot => ?_, _, (hwritten.trans hopened).trans hmore⟩
  have hroot' := hroot.grows (hwritten.grows hroot)
  exact ((hreaches hroot').grows
    (hmore.grows (hroot'.grows (hopened.grows hroot')))).reach_of_write

/-- Every operation comes to an outcome and does what belongs to it: it makes directories and writes
to files. -/
theorem outcome_spec (op : Operation) (w : Workspace σ) :
    op.Yields w.output (op.outcome w) ∧ (op.step.run w).2.output.tool = w.output.tool ∧
      (op.outcome w).Does w (op.step.run w).2 ∧
      ∃ touched, w.files.Changes (op.step.run w).2.files touched := by
  obtain ⟨touched, hwritten⟩ := settled_changes w
  cases op with
  | prepare path source =>
    rw [Operation.outcome, Operation.step, Emit.prepare_run]
    rcases hopening : (Disk.opening path).run w.settled with ⟨(cause | l), files⟩
    · have hchanges := Disk.opening_of_error hopening
      exact ⟨.refused path source, rfl,
        .refused rfl rfl fun l => hchanges.contents l List.not_mem_nil, _, hwritten.trans hchanges⟩
    · have hpushed :=
        Workspace.type_pushed (w := w.opened files path l) rfl (w.output.head source)
      simp only [hpushed.file?, Option.elim_some]
      exact ⟨.opened path source l, does_opened hopening (w.output.head source)⟩
  | line text =>
    rw [Operation.outcome, Operation.step, Emit.line_run]
    cases hcurrent : w.output.current with
    | none => exact ⟨.lost text, rfl, .lost hcurrent, [], .refl _ _⟩
    | some file =>
      have hpushed := Workspace.type_pushed hcurrent [text]
      refine ⟨.wrote text, ?_, .wrote text file hcurrent hpushed, [file.location], ?_⟩
      all_goals
        obtain ⟨out, pending, -, hnow⟩ := hpushed
        simp only [hnow]
      exact w.files.append_changes file.location out
  | close => exact ⟨.closed, rfl, .closed, touched, hwritten⟩
  | drop => exact ⟨.dropped, rfl, .closed, touched, hwritten⟩

theorem does_outcome (op : Operation) (w : Workspace σ) :
    (op.outcome w).Does w (op.step.run w).2 :=
  (outcome_spec op w).2.2.1

theorem head_of_tool {o o' : Output} (h : o.tool = o'.tool) (source : Option SchemaFile) :
    o.head source = o'.head source := by
  have hmarker (f : SchemaFile) : o.marker f = o'.marker f := by
    unfold Output.marker
    rw [h]
  cases source with
  | none => rfl
  | some f => exact congrArg (fun marker => [marker, ""]) (hmarker f)

theorem yields_of_tool {o o' : Output} (h : o.tool = o'.tool) {op : Operation} {outcome : Outcome}
    (hyields : op.Yields o outcome) : op.Yields o' outcome := by
  cases hyields with
  | opened path source l =>
    rw [head_of_tool h]
    exact .opened path source l
  | refused path source => exact .refused path source
  | wrote text => exact .wrote text
  | lost text => exact .lost text
  | closed => exact .closed
  | dropped => exact .dropped

theorem yields_history (ops : List Operation) (w : Workspace σ) :
    List.Forall₂ (Operation.Yields w.output) ops (Operation.history ops w) := by
  induction ops generalizing w with
  | nil => exact .nil
  | cons op ops ih =>
    obtain ⟨hyields, htool, -⟩ := outcome_spec op w
    have hrest := ih (op.step.run w).2
    rw [Operation.history]
    refine .cons hyields ?_
    generalize (op.step.run w).2 = now at hrest htool ⊢
    exact hrest.imp fun _ _ => yields_of_tool htool

theorem openAfter_cons (o : Outcome) (rest : List Outcome) :
    openAfter (o :: rest) = if rest.all isLine then o.opened? else openAfter rest := by
  unfold openAfter
  rw [List.reverse_cons]
  split
  · next hall =>
    have hrest : ∀ o ∈ rest.reverse, o.isLine = true :=
      fun o ho => List.all_eq_true.1 hall o (List.mem_reverse.1 ho)
    rw [List.dropWhile_append_of_pos hrest]
    cases o <;> rfl
  · next hnot =>
    have hne : rest.reverse.dropWhile isLine ≠ [] := by
      rw [Ne, List.dropWhile_eq_nil_iff]
      intro hall
      exact hnot (List.all_eq_true.2 fun o ho => hall o (List.mem_reverse.2 ho))
    rw [List.dropWhile_append, if_neg (by simpa using hne), List.head?_append_of_ne_nil _ hne]

theorem linesOf_opened (l : Location) (file : OutputFile) (head : List String)
    (rest : List Outcome) :
    linesOf l (.opened file head :: rest) = (linesOf l rest).or
      (if file.location = l then some (head ++ linesFirst rest) else none) :=
  rfl

variable {o : Outcome} {w now : Workspace σ}

theorem linesOf_of_not_opened (l : Location) (h : o.opened? = none) (rest : List Outcome) :
    linesOf l (o :: rest) = linesOf l rest := by
  cases o with
  | opened => cases h
  | _ => exact Option.or_none

/-- What is open after an operation. -/
theorem file?_of_does (h : o.Does w now) :
    now.output.file? = if o.isLine then w.output.file? else o.opened? := by
  cases h with
  | opened file head current => exact current
  | refused current =>
    rw [Output.file?, current]
    rfl
  | wrote text file current pushed =>
    rw [pushed.file?, Output.file?, current]
    rfl
  | lost => rfl
  | closed => rfl

theorem written_of_does (h : o.Does w now) :
    now.output.written = w.output.written ++ (o.opened?.map (·.path)).toList := by
  cases h with
  | opened file head _ written => exact written
  | refused _ written => rw [written]; exact (List.append_nil _).symm
  | wrote text file _ pushed => exact pushed.written.trans (List.append_nil _).symm
  | lost => exact (List.append_nil _).symm
  | closed => exact (List.append_nil _).symm

/-- The contents of `l` when the lines that `history` begins with have been written to the file that
is open in `w`. -/
def continued (w : Workspace σ) (history : List Outcome) (l : Location) : Option ByteArray :=
  if w.output.file?.map (·.location) = some l then
    (w.settled.contents? l).map (· ++ Output.bytes (linesFirst history))
  else w.settled.contents? l

theorem continued_of_nothing {history : List Outcome} (h : linesFirst history = []) (l : Location) :
    continued w history l = w.settled.contents? l := by
  have hnothing (bytes : ByteArray) : bytes ++ Output.bytes [] = bytes := ByteArray.append_empty
  unfold continued
  rw [h]
  split
  · simp only [hnothing, Option.map_id']
  · rfl

theorem continued_of_closed (h : w.output.current = none) (history : List Outcome) (l : Location) :
    continued w history l = w.files.contents? l := by
  rw [continued, Output.file?, h, Workspace.settled_of_closed h]
  rfl

/-- The lines behind an opening go to the file that it opened. -/
theorem contents_of_does (h : o.Does w now) (history : List Outcome) (l : Location) :
    ((linesOf l history).map Output.bytes).or (continued now history l) =
      ((linesOf l (o :: history)).map Output.bytes).or (continued w (o :: history) l) := by
  have hkept (hline : o.isLine = false) : continued w (o :: history) l = w.settled.contents? l := by
    refine continued_of_nothing ?_ l
    rw [linesFirst, List.takeWhile_cons, hline]
    rfl
  cases h with
  | opened file head current _ kept contents =>
    rw [hkept rfl, linesOf_opened, continued, current, Option.map_some]
    by_cases hl : file.location = l
    · subst hl
      cases linesOf file.location history <;> simp [contents, Output.bytes_append]
    · have hne : some file.location ≠ some l := by simpa using hl
      rw [if_neg hne, kept l (Ne.symm hl), if_neg hl, Option.or_none]
  | refused current _ kept =>
    rw [hkept rfl, linesOf_of_not_opened l rfl, continued_of_closed current, kept l]
  | wrote text file current pushed =>
    rw [linesOf_of_not_opened l rfl]
    congr 1
    unfold continued
    rw [pushed.file?, pushed.settled current, show w.output.file? = some file.toOutputFile by
      rw [Output.file?, current]; rfl]
    by_cases hl : file.location = l
    · subst hl
      have hfirst : linesFirst (.wrote text :: history) = [text] ++ linesFirst history := rfl
      simp only [Option.map_some, if_pos, FileSystem.contents?_append, Option.map_map, hfirst,
        Output.bytes_append]
      congr 1
      funext bytes
      rw [Function.comp_apply, ByteArray.append_assoc]
      rfl
    · have hne : some file.location ≠ some l := by simpa using hl
      simp only [Option.map_some, if_neg hne]
      exact (w.settled.append_changes file.location _).contents l (by simpa using Ne.symm hl)
  | lost current =>
    rw [linesOf_of_not_opened l rfl, continued_of_closed current, continued_of_closed current]
  | closed =>
    rw [hkept rfl, linesOf_of_not_opened l rfl, continued_of_closed rfl]
    rfl

theorem file?_after (ops : List Operation) (w : Workspace σ) :
    (Operation.after ops w).output.file? =
      if (Operation.history ops w).all isLine then w.output.file?
      else openAfter (Operation.history ops w) := by
  induction ops generalizing w with
  | nil => rfl
  | cons op ops ih =>
    have hstep := file?_of_does (does_outcome op w)
    rw [Operation.history, List.all_cons, openAfter_cons]
    show (Operation.after ops (op.step.run w).2).output.file? = _
    rw [ih, hstep]
    cases (Operation.history ops (op.step.run w).2).all isLine <;>
      cases (op.outcome w).isLine <;> rfl

theorem written_after (ops : List Operation) (w : Workspace σ) :
    (Operation.after ops w).output.written = w.output.written ++
      ((Operation.history ops w).filterMap opened?).map (·.path) := by
  induction ops generalizing w with
  | nil => exact (List.append_nil _).symm
  | cons op ops ih =>
    have hstep := written_of_does (does_outcome op w)
    show (Operation.after ops (op.step.run w).2).output.written = _
    rw [ih, hstep, List.append_assoc, Operation.history, List.filterMap_cons]
    cases (op.outcome w).opened? <;> rfl

theorem contents_after (ops : List Operation) (w : Workspace σ) (l : Location) :
    (Operation.after ops w).settled.contents? l =
      ((linesOf l (Operation.history ops w)).map Output.bytes).or
        (continued w (Operation.history ops w) l) := by
  induction ops generalizing w with
  | nil => exact (continued_of_nothing rfl l).symm
  | cons op ops ih =>
    show (Operation.after ops (op.step.run w).2).settled.contents? l = _
    rw [ih, Operation.history]
    exact contents_of_does (does_outcome op w) _ l

theorem changes_after (ops : List Operation) (w : Workspace σ) :
    ∃ touched, w.files.Changes (Operation.after ops w).files touched := by
  induction ops generalizing w with
  | nil => exact ⟨[], .refl _ _⟩
  | cons op ops ih =>
    obtain ⟨-, -, -, touched, hstep⟩ := outcome_spec op w
    obtain ⟨more, hrest⟩ := ih (op.step.run w).2
    exact ⟨_, hstep.trans hrest⟩

/-- The path of an opened file leads to it from then on. -/
theorem reaches_after (ops : List Operation) (hroot : w.files.HasDirectory []) {file : OutputFile}
    (h : file ∈ (Operation.history ops w).filterMap opened?) :
    (Operation.after ops w).files.Reaches .reach file.path file.path.steps file.location := by
  induction ops generalizing w with
  | nil => cases h
  | cons op ops ih =>
    obtain ⟨-, -, hdoes, touched, hstep⟩ := outcome_spec op w
    have hroot' := hroot.grows (hstep.grows hroot)
    obtain ⟨o, ho, hopened⟩ := List.mem_filterMap.1 h
    rw [Operation.history] at ho
    rcases List.mem_cons.1 ho with rfl | hrest
    · obtain ⟨more, hlater⟩ := changes_after ops (op.step.run w).2
      have hgrows := hlater.grows hroot'
      generalize op.outcome w = o at hopened hdoes
      generalize hnow : (op.step.run w).2 = now at hdoes hgrows
      cases hdoes with
      | opened file' head _ _ _ _ reaches =>
        obtain rfl := Option.some.inj hopened
        refine (reaches hroot).grows ?_
        show now.files.Grows (Operation.after ops (op.step.run w).2).files
        rw [hnow]
        exact hgrows
      | _ => cases hopened
    · exact ih hroot' (List.mem_filterMap.2 ⟨o, hrest, hopened⟩)

theorem linesOf_isSome {file : OutputFile} {history : List Outcome}
    (h : file ∈ history.filterMap opened?) : (linesOf file.location history).isSome := by
  induction history with
  | nil => cases h
  | cons o rest ih =>
    rw [List.filterMap_cons] at h
    cases hopened : o.opened? with
    | none =>
      rw [hopened] at h
      rw [linesOf_of_not_opened _ hopened]
      exact ih h
    | some file' =>
      rw [hopened] at h
      cases o with
      | opened first head =>
        rw [linesOf_opened, Option.isSome_or, Bool.or_eq_true]
        obtain rfl := Option.some.inj hopened
        rcases List.mem_cons.1 h with rfl | hrest
        · exact Or.inr (by simp)
        · exact Or.inl (ih hrest)
      | _ => cases hopened

end OutputStoreLemmas

/-! ## 2. Writing through -/

namespace OutputStoreLemmas

variable {σ : Type}

theorem step_through (op : Operation) (w : Workspace σ) :
    op.step.run w.through = ((op.step.run w).1, (op.step.run w).2.through) := by
  cases op with
  | prepare path source => exact Emit.prepare_through w path source
  | line text => exact Emit.line_through w text
  | close => exact Emit.close_through w
  | drop => exact Emit.close_through w

theorem file?_through (w : Workspace σ) : w.through.output.file? = w.output.file? := by
  rw [Output.file?, Output.file?, Workspace.through, Option.map_map]
  rfl

theorem outcome_through (op : Operation) (w : Workspace σ) :
    op.outcome w.through = op.outcome w := by
  cases op with
  | prepare path source =>
    rw [Operation.outcome, Operation.outcome, Emit.prepare_through]
    rcases (Emit.prepare path source).run w with ⟨(e | _), now⟩
    · rfl
    · simp only [file?_through]
      rfl
  | line text => rw [Operation.outcome, Operation.outcome, Emit.line_through]
  | close => rfl
  | drop => rfl

/-- With a buffer or without one, the operations come to the same. What waits in the buffer is all
that the files differ by. -/
theorem through_after (ops : List Operation) (w : Workspace σ) :
    Operation.after ops w.through = (Operation.after ops w).through ∧
      Operation.history ops w.through = Operation.history ops w := by
  induction ops generalizing w with
  | nil => exact ⟨rfl, rfl⟩
  | cons op ops ih =>
    obtain ⟨hafter, hhistory⟩ := ih (op.step.run w).2
    have hstep : (op.step.run w.through).2 = (op.step.run w).2.through := by rw [step_through]
    refine ⟨?_, ?_⟩
    · show Operation.after ops (op.step.run w.through).2 = _
      rw [hstep, hafter]
      rfl
    · rw [Operation.history, Operation.history, outcome_through, hstep, hhistory]

end OutputStoreLemmas

/-! ## 3. Whole runs -/

/-- The files and the handle, without the notes of the target. -/
def Workspace.bare {σ : Type} (w : Workspace σ) : Workspace Unit :=
  ⟨w.files, w.output, ()⟩

theorem Workspace.bare_push {σ : Type} (w : Workspace σ) (text : String) :
    (w.push text).bare = w.bare.push text := by
  unfold push bare
  cases w.output.current <;> rfl

/-- All that the step does to the files and the handle are operations of the handle. -/
def Emit.Operates {σ α : Type} (step : Emit σ α) : Prop :=
  ∀ w, ∃ ops, (step.run w).2.bare = Operation.after ops w.bare

namespace Emit

variable {σ α β : Type}

/-- The handle does not look at the notes. -/
theorem step_bare (op : Operation) (w : Workspace σ) :
    ((op.step : Emit σ Unit).run w).2.bare = (op.step.run w.bare).2 := by
  cases op with
  | prepare path source =>
    have hsettled : w.bare.settled = w.settled := rfl
    rw [Operation.step, Operation.step, prepare_run, prepare_run, hsettled]
    rcases (Disk.opening path).run w.settled with ⟨(cause | l), files⟩
    · rfl
    · exact Workspace.type_comm Workspace.bare_push _ _
  | line text =>
    have hcurrent : w.bare.output.current = w.output.current := rfl
    rw [Operation.step, Operation.step, line_run, line_run, hcurrent]
    cases w.output.current with
    | none => rfl
    | some file => exact Workspace.type_comm Workspace.bare_push w [text]
  | close => rfl
  | drop => rfl

theorem operates_step (op : Operation) : (op.step : Emit σ Unit).Operates :=
  fun w => ⟨[op], step_bare op w⟩

theorem operates_prepare (path : Path) (source : Option SchemaFile) :
    (prepare path source : Emit σ Unit).Operates :=
  operates_step (.prepare path source)

theorem operates_line (text : String) : (line text : Emit σ Unit).Operates :=
  operates_step (.line text)

theorem operates_close : (close : Emit σ Unit).Operates :=
  operates_step .close

theorem operates_of_bare {step : Emit σ α} (h : ∀ w, (step.run w).2.bare = w.bare) :
    step.Operates :=
  fun w => ⟨[], h w⟩

theorem Operates.bind {x : Emit σ α} {f : α → Emit σ β} (hx : x.Operates)
    (hf : ∀ a, (f a).Operates) : (x >>= f).Operates := by
  intro w
  obtain ⟨ops, hops⟩ := hx w
  rw [run_bind]
  rcases hrun : x.run w with ⟨(e | a), now⟩
  · rw [hrun] at hops
    exact ⟨ops, hops⟩
  · rw [hrun] at hops
    obtain ⟨more, hmore⟩ := hf a now
    refine ⟨ops ++ more, hmore.trans ?_⟩
    rw [show now.bare = Operation.after ops w.bare from hops, Operation.after_append]

theorem steady_operates : Steady fun _ (step : Emit σ _) => step.Operates :=
  ⟨fun _ => operates_of_bare fun _ => rfl, fun _ => operates_of_bare fun _ => rfl, Operates.bind,
    operates_line, operates_close⟩

theorem operates_get : (get : Emit σ (Workspace σ)).Operates :=
  operates_of_bare fun _ => rfl

end Emit

theorem Java.operates_handle (g : Graph) (f : SchemaFile) (e : Event) :
    (Java.handle g f e).Operates := by
  refine Emit.steady_operates.java fun d hd => ?_
  subst hd
  exact Emit.operates_get.bind fun w => Emit.operates_prepare _ (some f)

namespace Rust

theorem operates_handle (g : Graph) (f : SchemaFile) (e : Event) :
    (Rust.handle g f e).Operates := by
  refine Emit.steady_operates.rust fun he w => ?_
  subst he
  rw [handle_beginFile_run]
  exact Emit.operates_prepare _ (some f) { w with notes := w.notes ++ childrenOf f }

theorem operates_writeIndex (directory names : List String) :
    (writeIndex directory names).Operates :=
  Emit.operates_get.bind fun _ => (Emit.operates_prepare _ none).bind fun _ =>
    Emit.Operates.bind (Emit.steady_operates.lines _) fun _ => Emit.operates_close

theorem operates_finish : finish.Operates := by
  intro w
  have hindex : ∀ i : List String × List String, (writeIndex i.1 i.2).Operates :=
    fun i => operates_writeIndex i.1 i.2
  obtain ⟨ops, hops⟩ := Emit.steady_operates.forM hindex (indexes w.notes) (atEnd w)
  refine ⟨.close :: ops, ?_⟩
  rw [finish_run, hops]
  rfl

/-- Also a failed attempt to write an index leaves no file open. -/
theorem closed_writeIndex (directory names : List String) (w : Workspace (List Child)) :
    ((writeIndex directory names).run w).2.output.current = none := by
  rw [writeIndex, run_bind, run_get]
  simp only
  rw [Emit.prepare_lines_close_run]
  rcases (Disk.opening _).run w.settled with ⟨(cause | l), files⟩ <;> rfl

theorem closed_finish (w : Workspace (List Child)) : (finish.run w).2.output.current = none := by
  have hindexes (items : List (List String × List String)) (w : Workspace (List Child))
      (h : w.output.current = none) :
      ((items.forM fun i => writeIndex i.1 i.2).run w).2.output.current = none := by
    induction items generalizing w with
    | nil => exact h
    | cons i rest ih =>
      have hfirst := closed_writeIndex i.1 i.2 w
      rw [forM_run_cons]
      rcases hrun : (writeIndex i.1 i.2).run w with ⟨(e | _), now⟩
      · rw [hrun] at hfirst
        exact hfirst
      · rw [hrun] at hfirst
        exact ih now hfirst
  rw [finish_run]
  exact hindexes _ _ rfl

end Rust

/-- What a run does to its files it does through the handle, which it leaves closed. -/
def Session.WorksThroughHandle {σ : Type} (plan : Plan σ) (roots : List Path)
    (s : Session σ) : Prop :=
  let final := (Session.run plan roots s).2.workspace
  final.output.current = none ∧ ∃ ops, final.bare = Operation.after ops s.workspace.bare

theorem Session.worksThroughHandle {σ : Type} {plan : Plan σ}
    (hhandle : ∀ g f e, (plan.target.handle g f e).Operates) (hfinish : plan.target.finish.Operates)
    (hclosed : ∀ w, (plan.target.finish.run w).2.output.current = none) (roots : List Path)
    (s : Session σ) : Session.WorksThroughHandle plan roots s := by
  have hkeeps : plan.Keeps (fun _ => True)
      (fun w => ∃ ops, w.bare = Operation.after ops s.workspace.bare) := by
    refine ⟨fun _ _ _ _ => trivial, fun g f e w hw => ?_⟩
    obtain ⟨ops, hops⟩ := hw
    obtain ⟨more, hmore⟩ := hhandle g f e w
    refine ⟨ops ++ more, hmore.trans ?_⟩
    rw [hops, Operation.after_append]
  rcases hrun : (roots.forM (Run.root plan)).run s with ⟨result, now⟩
  have hnow := (hkeeps.run roots (s := s) ⟨trivial, [], rfl⟩).1.2
  rw [hrun] at hnow
  obtain ⟨ops, hops⟩ := hnow
  obtain ⟨more, hmore⟩ := hfinish now.workspace
  unfold Session.WorksThroughHandle
  rw [EventOrderLemmas.session_run hrun]
  refine ⟨hclosed now.workspace, ops ++ more, hmore.trans ?_⟩
  rw [show now.workspace.bare = _ from hops, Operation.after_append]

open OutputStoreLemmas

/-- The output handle is a store of files, as told by the history of what became of the operations.

One file is open at most: the one opened last, as long as only lines came after it. The handle knows
the files it has opened, in order. A line without an open file is refused and changes nothing. A file
that cannot be opened leaves no file open, and of the files only the one that was open before it
changes: it has all its lines now. When the handle is closed, each file holds the lines of its last
opening, and its path leads to them; the other files are as they were.

All this is the same for a handle that writes through, where each file holds the lines of its last
opening at any time.

Both targets do all they do to files through the handle, and each run leaves it closed. -/
theorem output_is_store {σ : Type} (w : Workspace σ) (closed : w.output.current = none)
    (new : w.output.written = []) (ops : List Operation) :
    let history := Operation.history ops w
    let now := Operation.after ops w
    let direct := Operation.after ops w.through
    let kept l := ((Outcome.linesOf l history).map Output.bytes).or (w.files.contents? l)
    List.Forall₂ (Operation.Yields w.output) ops history ∧
    now.output.file? = Outcome.openAfter history ∧
    now.output.written = (history.filterMap Outcome.opened?).map (·.path) ∧
    (∀ text, (now.output.current = none → (Emit.line text).run now = (.error .noOutput, now)) ∧
      (now.output.current ≠ none → ((Emit.line text).run now).1 = .ok ())) ∧
    (∀ path source e, ((Emit.prepare path source).run now).1 = .error e →
      let later := ((Emit.prepare path source).run now).2
      later.output.current = none ∧ later.output.written = now.output.written ∧
        ∀ l, later.files.contents? l = kept l ∧
          (now.output.file?.map (·.location) ≠ some l →
            later.files.contents? l = now.files.contents? l)) ∧
    (now.output.current = none →
      (∀ l, now.files.contents? l = kept l) ∧
      (w.files.HasDirectory [] → ∀ file ∈ history.filterMap Outcome.opened?,
        ∃ lines, Outcome.linesOf file.location history = some lines ∧
          now.files.read file.path = .ok (Output.bytes lines))) ∧
    (Operation.history ops w.through = history ∧ direct.output.file? = now.output.file? ∧
      direct.output.written = now.output.written ∧ ∀ l, direct.files.contents? l = kept l) ∧
    (∀ (plan : Plan Unit) (roots : List Path) (s : Session Unit),
      plan.target = Java.target → Session.WorksThroughHandle plan roots s) ∧
    (∀ (plan : Plan (List Rust.Child)) (roots : List Path) (s : Session (List Rust.Child)),
      plan.target = Rust.target → Session.WorksThroughHandle plan roots s) := by
  intro history now direct kept
  have hsettled (l : Location) : now.settled.contents? l = kept l := by
    rw [contents_after ops w l, continued_of_closed closed]
  obtain ⟨hdirect, hsame⟩ := through_after ops w
  refine ⟨yields_history ops w, ?_, ?_, fun text => ⟨fun hnone => ?_, fun hsome => ?_⟩, ?_,
    fun hclosed => ?_, ⟨hsame, ?_, ?_, fun l => ?_⟩, ?_, ?_⟩
  · rw [file?_after ops w, Output.file?, closed]
    split
    · next hall =>
      -- Nothing but lines, so nothing was opened.
      have hnone : history.reverse.dropWhile Outcome.isLine = [] := by
        rw [List.dropWhile_eq_nil_iff]
        exact fun o ho => List.all_eq_true.1 hall o (List.mem_reverse.1 ho)
      rw [Outcome.openAfter, hnone]
      rfl
    · rfl
  · rw [written_after ops w, new, List.nil_append]
  · rw [Emit.line_run, hnone]
  · obtain ⟨file, hfile⟩ := Option.ne_none_iff_exists'.1 hsome
    rw [Emit.line_run, hfile]
  · intro path source e herror
    rw [Emit.prepare_run] at herror ⊢
    rcases hopening : (Disk.opening path).run now.settled with ⟨(cause | l), files⟩
    · refine ⟨rfl, rfl, fun l => ?_⟩
      have hopened := (Disk.opening_of_error hopening).contents l List.not_mem_nil
      exact ⟨hopened.trans (hsettled l), fun hl => hopened.trans (contents?_settled now hl)⟩
    · rw [hopening] at herror
      cases herror
  · have hfiles (l : Location) : now.files.contents? l = kept l := by
      rw [← hsettled, Workspace.settled_of_closed hclosed]
    refine ⟨hfiles, fun hroot file hfile => ?_⟩
    obtain ⟨lines, hlines⟩ := Option.isSome_iff_exists.1 (linesOf_isSome hfile)
    refine ⟨lines, hlines, FileSystem.read_eq_ok_iff.2 ⟨file.location, ?_, ?_⟩⟩
    · exact reaches_after ops hroot hfile
    · rw [hfiles]
      simp only [kept, hlines, Option.map_some, Option.some_or]
  · rw [show direct = now.through from hdirect, file?_through]
  · rw [show direct = now.through from hdirect]
    rfl
  · rw [show direct = now.through from hdirect]
    exact hsettled l
  · rintro ⟨_, skip, schemaExt⟩ roots s rfl
    exact Session.worksThroughHandle Java.operates_handle Emit.operates_close (fun _ => rfl) roots s
  · rintro ⟨_, skip, schemaExt⟩ roots s rfl
    exact Session.worksThroughHandle Rust.operates_handle Rust.operates_finish Rust.closed_finish
      roots s

/-- An empty file system, and a handle that has opened nothing. -/
def emptyStore : Workspace Unit :=
  ⟨.empty, Output.new ⟨"/"⟩ "" "t", ()⟩

/-- A line too early, a file that is opened twice, and one that cannot be opened below it. -/
def reopening : List Operation :=
  [.line "early", .prepare ⟨"/d/a"⟩ none, .line "old", .prepare ⟨"/d/a"⟩ (some importedFile),
    .line "new", .prepare ⟨"/d/a/b"⟩ none]

theorem history_reopening :
    Operation.history reopening emptyStore =
      [.lost, .opened ⟨⟨"/d/a"⟩, ["d", "a"]⟩ [], .wrote "old",
        .opened ⟨⟨"/d/a"⟩, ["d", "a"]⟩ [emptyStore.output.marker importedFile, ""], .wrote "new",
        .refused] := by
  decide +kernel

/-- A line may still wait while its file is open. -/
example :
    (Operation.after [.prepare ⟨"/a"⟩ none, .line "x"] emptyStore).files.contents? ["a"] =
      some .empty := by
  decide +kernel

/-- The file that is opened twice holds the lines of its second opening. -/
theorem output_is_store_reopened :
    let now := Operation.after reopening emptyStore
    now.output.current = none ∧ now.output.written = [⟨"/d/a"⟩, ⟨"/d/a"⟩] ∧
      now.files.read ⟨"/d/a"⟩ =
        .ok (Output.bytes [emptyStore.output.marker importedFile, "", "new"]) := by
  obtain ⟨-, hfile, hwritten, -, -, hclosed, -⟩ :=
    output_is_store emptyStore rfl rfl reopening
  rw [history_reopening] at hfile hwritten
  have hcurrent := Option.map_eq_none_iff.1 hfile
  refine ⟨hcurrent, hwritten, ?_⟩
  obtain ⟨-, hread⟩ := hclosed hcurrent
  rw [history_reopening] at hread
  obtain ⟨lines, hlines, hcontents⟩ :=
    hread ⟨.full, [], rfl⟩ ⟨⟨"/d/a"⟩, ["d", "a"]⟩ (by simp [Outcome.opened?])
  obtain rfl : [emptyStore.output.marker importedFile, "", "new"] = lines :=
    Option.some.inj hlines
  exact hcontents

end SchemaGen
