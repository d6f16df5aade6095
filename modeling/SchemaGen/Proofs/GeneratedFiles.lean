import SchemaGen.Proofs.OutputStore
import SchemaGen.Proofs.RootFiles

/-!
# What generated files hold

Generating code opens a file, writes lines to it and closes it, one file after the other. So what a
target has done is a list of files with their lines. Where two of them lie at the same place, the
later one counts.

The types of fields are looked up in the graph of the moment. A graph only grows, and what is found
in it stays there, so the lines can be told from the graph at the end of a run as well.

Results:
1. `Workspace.Wrote.trans`, `Workspace.Wrote.contents?_eq`: files written one after the other.
2. `Emit.writes_unit`: a file that is opened, filled and closed.
3. `Java.generates`, `Rust.generates`: the files for one schema file.
4. `Rust.writes_finish`: the indexes at the end of a run.
-/

namespace SchemaGen

variable {σ : Type}

/-! ## Definitions -/

/-- A generated file. -/
structure GeneratedFile where
  path : Path
  lines : List String
deriving DecidableEq

/-- The lines of the last one of the files that lies at `l`. -/
def GeneratedFile.lastAt (l : Location) (placed : List (GeneratedFile × Location)) :
    Option (List String) :=
  (placed.reverse.find? (·.2 = l)).map (·.1.lines)

/-- The handle as it was when it was new. -/
def Output.blank (o : Output) : Output :=
  { o with current := none, written := [] }

/-- `after` comes from `before` by writing files to places, one after the other. -/
structure Workspace.Wrote (before after : Workspace σ) (placed : List (GeneratedFile × Location)) :
    Prop where
  blank : after.output.blank = before.output.blank
  written : after.output.written = before.output.written ++ placed.map (·.1.path)
  changes : before.files.Changes after.files (placed.map (·.2))
  contents : ∀ l lines, GeneratedFile.lastAt l placed = some lines →
    after.files.contents? l = some (Output.bytes lines)
  reaches : before.files.HasDirectory [] →
    ∀ p ∈ placed, after.files.Reaches .reach p.1.path p.1.path.steps p.2
  full : before.files.HasDirectory [] →
    ∀ p ∈ placed, ∃ contents, after.files.shape? p.2 = some (.file .full contents)

/-- The files are written, to whatever places. -/
def Workspace.Writes (before : Workspace σ) (files : List GeneratedFile) (after : Workspace σ) :
    Prop :=
  ∃ placed : List (GeneratedFile × Location), placed.map (·.1) = files ∧ before.Wrote after placed

/-- If the step succeeds, it has written the files, and has closed those that it opened. -/
def Emit.Writes (step : Emit σ Unit) (files : Output → List GeneratedFile) : Prop :=
  ∀ w now, step.run w = (.ok (), now) →
    w.closed.Writes (files w.output.blank) now.closed ∧
      (w.output.current = none → now.output.current = none)

/-- If the step succeeds while a file is open, it has added the lines to that file. -/
def Emit.Appends {α : Type} (step : Emit σ α) (texts : List String) : Prop :=
  ∀ w file a now, w.output.current = some file → step.run w = (.ok a, now) →
    w.Pushed file (Output.text texts) now

/-- If the step succeeds, it has found `a` and changed nothing. -/
def Emit.Finds {α : Type} (step : Emit σ α) (a : α) : Prop :=
  ∀ w b now, step.run w = (.ok b, now) → b = a ∧ now = w

/-- For each schema file the target writes the files `units`, which can also be told from any graph
that the graph of the moment grows to. -/
structure Target.Generates (t : Target σ) (units : Output → Graph → SchemaFile → List GeneratedFile) :
    Prop where
  accepts : ∀ f, t.refuses f = false
  writes : ∀ {g G : Graph}, g.files <+: G.files → ∀ f,
    ((Event.ofFile f).forM (t.handle g f)).Writes fun o => units o G f

/-- The type of a field, as far as it has one. -/
def Vocabulary.rendered (v : Vocabulary) (g : Graph) (x : Field) : Rendered :=
  (v.fieldType g x).toOption.getD ⟨"", ""⟩

/-! ### Sources -/

namespace Java

/-- The lines of the class for a message. -/
def classLines (g : Graph) (f : SchemaFile) (m : Message) : List String :=
  typeStart f "class" m.toDescribed ++
    m.kept.flatMap (fun x => doc "  " x.comment ++ [fieldLine x (vocabulary.rendered g x)]) ++
    messageEnd

/-- The lines of the enum for an enumeration. -/
def enumLines (f : SchemaFile) (e : Enumeration) : List String :=
  typeStart f "enum" e.toDescribed ++
    (Event.withLast e.kept).flatMap (fun (c, isLast) => constantLines c isLast) ++ enumEnd e e.kept

/-- The source of the definition `name` of a file. -/
def sourceOf (o : Output) (f : SchemaFile) (name : String) (lines : List String) : GeneratedFile :=
  ⟨sourcePath o.root o.extension f name, o.head (some f) ++ lines⟩

/-- The files that are generated for a schema file. -/
def filesFor (o : Output) (g : Graph) (f : SchemaFile) : List GeneratedFile :=
  (f.messages.filter (!·.isSkipped)).map (fun m => sourceOf o f m.name (classLines g f m)) ++
    (f.enums.filter (!·.isSkipped)).map fun e => sourceOf o f e.name (enumLines f e)

end Java

namespace Rust

/-- The lines of the struct for a message. -/
def structLines (g : Graph) (m : Message) : List String :=
  structStart m ++ m.kept.flatMap (fun x => fieldLines x (vocabulary.rendered g x)) ++
    structEnd m (m.kept.map fun x => defaultLine x (vocabulary.rendered g x))

/-- The lines of the enum for an enumeration. -/
def enumLines (e : Enumeration) : List String :=
  enumStart e ++ e.kept.flatMap variantLines ++ enumEnd e e.kept

/-- The source of a schema file. -/
def sourceOf (o : Output) (g : Graph) (f : SchemaFile) : GeneratedFile where
  path := sourcePath o.root o.extension f
  lines := o.head (some f) ++ ((f.messages.filter (!·.isSkipped)).flatMap (structLines g) ++
    (f.enums.filter (!·.isSkipped)).flatMap enumLines)

/-- The index of a directory with the modules that it declares. -/
def indexOf (o : Output) (i : List String × List String) : GeneratedFile :=
  ⟨indexPath o.root o.extension i.1, indexLines o.tool i.2⟩

end Rust

/-! ## 1. Files written one after the other -/

namespace GeneratedFile

theorem lastAt_append (l : Location) (placed more : List (GeneratedFile × Location)) :
    lastAt l (placed ++ more) = (lastAt l more).or (lastAt l placed) := by
  rw [lastAt, List.reverse_append, List.find?_append, Option.map_or, ← lastAt, ← lastAt]

theorem lastAt_singleton (l : Location) (file : GeneratedFile) (k : Location) :
    lastAt l [(file, k)] = if k = l then some file.lines else none := by
  by_cases h : k = l <;> simp [lastAt, h]

variable {l : Location} {placed : List (GeneratedFile × Location)}

theorem lastAt_eq_none_iff : lastAt l placed = none ↔ l ∉ placed.map (·.2) := by
  rw [lastAt, Option.map_eq_none_iff, List.find?_eq_none, List.mem_map]
  constructor
  · rintro h ⟨p, hp, rfl⟩
    exact h p (List.mem_reverse.2 hp) (by simp)
  · rintro h p hp heq
    exact h ⟨p, List.mem_reverse.1 hp, by simpa using heq⟩

/-- Where no two files lie at the same place, each one is the last at its own. -/
theorem lastAt_of_mem (h : (placed.map (·.2)).Nodup) {file : GeneratedFile}
    (hmem : (file, l) ∈ placed) : lastAt l placed = some file.lines := by
  induction placed with
  | nil => cases hmem
  | cons p rest ih =>
    obtain ⟨hnot, hrest⟩ := List.nodup_cons.1 h
    rw [← List.singleton_append, lastAt_append]
    rcases List.mem_cons.1 hmem with rfl | hmem
    · rw [lastAt_eq_none_iff.2 hnot, lastAt_singleton, if_pos rfl]
      rfl
    · rw [ih hrest hmem]
      rfl

end GeneratedFile

namespace Workspace

theorem Wrote.refl (w : Workspace σ) : w.Wrote w [] :=
  ⟨rfl, (List.append_nil _).symm, .refl _ _, nofun, fun _ => nofun, fun _ => nofun⟩

variable {w now later : Workspace σ} {placed : List (GeneratedFile × Location)}

theorem Wrote.trans {more : List (GeneratedFile × Location)} (h : w.Wrote now placed)
    (h' : now.Wrote later more) : w.Wrote later (placed ++ more) where
  blank := h'.blank.trans h.blank
  written := by rw [h'.written, h.written, List.map_append, List.append_assoc]
  changes := by
    rw [List.map_append]
    exact h.changes.trans h'.changes
  contents l lines hlast := by
    rw [GeneratedFile.lastAt_append] at hlast
    cases hmore : GeneratedFile.lastAt l more with
    | some last =>
      rw [hmore] at hlast
      exact h'.contents l lines (hmore.trans hlast)
    | none =>
      rw [hmore, Option.none_or] at hlast
      rw [h'.changes.contents l (GeneratedFile.lastAt_eq_none_iff.1 hmore)]
      exact h.contents l lines hlast
  reaches hroot p hp := by
    have hroot' := hroot.grows (h.changes.grows hroot)
    rcases List.mem_append.1 hp with hp | hp
    · exact (h.reaches hroot p hp).grows (h'.changes.grows hroot')
    · exact h'.reaches hroot' p hp
  full hroot p hp := by
    have hroot' := hroot.grows (h.changes.grows hroot)
    rcases List.mem_append.1 hp with hp | hp
    · obtain ⟨contents, hshape⟩ := h.full hroot p hp
      exact (h'.changes.grows hroot').file hshape
    · exact h'.full hroot' p hp

theorem Wrote.contents?_eq (h : w.Wrote now placed) (l : Location) :
    now.files.contents? l =
      ((GeneratedFile.lastAt l placed).map Output.bytes).or (w.files.contents? l) := by
  cases hlast : GeneratedFile.lastAt l placed with
  | some lines => exact h.contents l lines hlast
  | none => exact h.changes.contents l (GeneratedFile.lastAt_eq_none_iff.1 hlast)

theorem Writes.refl (w : Workspace σ) : w.Writes [] w :=
  ⟨[], rfl, .refl w⟩

theorem Writes.trans {files more : List GeneratedFile} (h : w.Writes files now)
    (h' : now.Writes more later) : w.Writes (files ++ more) later := by
  obtain ⟨placed, hfiles, hwrote⟩ := h
  obtain ⟨placed', hmore, hwrote'⟩ := h'
  exact ⟨placed ++ placed', by rw [List.map_append, hfiles, hmore], hwrote.trans hwrote'⟩

theorem Writes.blank {files : List GeneratedFile} (h : w.Writes files now) :
    now.output.blank = w.output.blank := by
  obtain ⟨placed, -, hwrote⟩ := h
  exact hwrote.blank

end Workspace

/-! ## 2. Single files -/

namespace Emit

open CollisionsLemmas RootFilesLemmas

variable {α β : Type}

theorem finds_pure (a : α) : (pure a : Emit σ α).Finds a := by
  intro w b now hrun
  cases hrun
  exact ⟨rfl, rfl⟩

variable {x : Emit σ α} {f : α → Emit σ β} {a : α} {act : α → Emit σ Unit} {texts : List String}

theorem Finds.bind {b : β} (hx : x.Finds a) (hf : (f a).Finds b) : (x >>= f).Finds b := by
  intro w b' now hrun
  obtain ⟨a', w', hfirst, hrest⟩ := run_bind_eq_ok hrun
  obtain ⟨rfl, rfl⟩ := hx w a' w' hfirst
  exact hf w' b' now hrest

variable {items : List α} {source : Option SchemaFile} {files : α → Output → List GeneratedFile}

theorem finds_forM (h : ∀ a ∈ items, (act a).Finds ()) : (items.forM act).Finds () := by
  induction items with
  | nil => exact finds_pure ()
  | cons a rest ih =>
    exact (h a List.mem_cons_self).bind (ih fun b hb => h b (List.mem_cons_of_mem _ hb))

theorem finds_mapM {act : α → Emit σ β} {found : α → β} (h : ∀ a, (act a).Finds (found a))
    (items : List α) : (items.mapM act).Finds (items.map found) := by
  induction items with
  | nil => exact finds_pure []
  | cons a rest ih =>
    rw [List.mapM_cons]
    exact (h a).bind (ih.bind (finds_pure _))

theorem appends_nothing {step : Emit σ α} (h : step.Finds a) : step.Appends [] := by
  intro w file b now hcurrent hrun
  obtain ⟨-, rfl⟩ := h w b now hrun
  exact .refl hcurrent

theorem Finds.bind_appends (hx : x.Finds a) (hf : (f a).Appends texts) :
    (x >>= f).Appends texts := by
  intro w file b now hcurrent hrun
  obtain ⟨a', w', hfirst, hrest⟩ := run_bind_eq_ok hrun
  obtain ⟨rfl, rfl⟩ := hx w a' w' hfirst
  exact hf w' file b now hcurrent hrest

theorem Appends.bind {more : List String} (hx : x.Appends texts) (hf : ∀ a, (f a).Appends more) :
    (x >>= f).Appends (texts ++ more) := by
  intro w file b now hcurrent hrun
  obtain ⟨a, w', hfirst, hrest⟩ := run_bind_eq_ok hrun
  rw [Output.text_append]
  exact (hx w file a w' hcurrent hfirst).trans fun pending hopen => hf a w' _ b now hopen hrest

theorem appends_lines (texts : List String) : (lines texts : Emit σ Unit).Appends texts := by
  intro w file a now hcurrent hrun
  rw [lines_run hcurrent] at hrun
  obtain rfl := (Prod.mk.inj hrun).2
  exact Workspace.type_pushed hcurrent texts

theorem appends_line (text : String) : (line text : Emit σ Unit).Appends [text] := by
  intro w file a now hcurrent hrun
  rw [line_run, hcurrent] at hrun
  obtain rfl := (Prod.mk.inj hrun).2
  exact Workspace.type_pushed hcurrent [text]

theorem appends_forM {texts : α → List String} (h : ∀ a ∈ items, (act a).Appends (texts a)) :
    (items.forM act).Appends (items.flatMap texts) := by
  induction items with
  | nil => exact appends_nothing (finds_pure ())
  | cons a rest ih =>
    rw [List.flatMap_cons]
    exact (h a List.mem_cons_self).bind fun _ => ih fun b hb => h b (List.mem_cons_of_mem _ hb)

/-- A file that was opened and then got more lines. -/
theorem wrote_of_prepare {path : Path} {w now : Workspace σ}
    (h : (prepare path source).run w = (.ok (), now)) :
    ∃ file, now.output.current = some file ∧ ∀ texts later,
      now.Pushed file (Output.text texts) later →
      w.closed.Wrote later.closed [(⟨path, w.output.head source ++ texts⟩, file.location)] := by
  rw [prepare_run] at h
  rcases hopening : (Disk.opening path).run w.settled with ⟨(cause | l), files⟩
  · rw [hopening] at h
    cases h
  rw [hopening] at h
  obtain rfl := (Prod.mk.inj h).2
  have hhead := Workspace.type_pushed (w := w.opened files path l) rfl (w.output.head source)
  obtain ⟨⟨file, pending⟩, hfile, hcurrent⟩ := hhead.exists_open
  obtain rfl : file = ⟨path, l⟩ := hfile
  refine ⟨_, hcurrent, fun texts later hmore => ?_⟩
  have hall : (w.opened files path l).Pushed ⟨⟨path, l⟩, ""⟩
      (Output.text (w.output.head source ++ texts)) later := by
    rw [Output.text_append]
    refine hhead.trans fun _ hopen => ?_
    cases hcurrent.symm.trans hopen
    exact hmore
  obtain ⟨hchanges, hshape, hreaches⟩ := hall.of_opening hopening
  have hblank : later.closed.output.blank = w.closed.output.blank := by
    obtain ⟨out, pending, -, rfl⟩ := hall
    rfl
  refine ⟨hblank, hall.written, hchanges, fun k lines hlast => ?_, fun hroot p hp => ?_,
    fun hroot p hp => ?_⟩
  · rw [GeneratedFile.lastAt_singleton] at hlast
    split at hlast
    · next heq =>
      subst heq
      obtain rfl := Option.some.inj hlast
      exact FileSystem.contents?_of_full hshape
    · cases hlast
  · obtain rfl := List.mem_singleton.1 hp
    exact hreaches hroot
  · obtain rfl := List.mem_singleton.1 hp
    exact ⟨_, hshape⟩

/-- A file that is opened at the first of some events, gets lines at others and is closed at the
last. -/
theorem writes_unit {act : Event → Emit σ Unit} {first last : Event} {inner : List Event}
    (path : Output → Path)
    (hfirst : ∀ w, ∃ notes, (act first).run w =
      (prepare (path w.output.blank) source).run { w with notes })
    (hinner : (inner.forM act).Appends texts) (hlast : act last = close) :
    ((first :: inner ++ [last]).forM act).Writes fun o =>
      [⟨path o, o.head source ++ texts⟩] := by
  intro w now hrun
  have hsplit : (([first] ++ (inner ++ [last])).forM act).run w = (.ok (), now) := hrun
  obtain ⟨opened, hopened, hrest⟩ := forM_append_ok hsplit
  obtain ⟨filled, hfilled, hclosed⟩ := forM_append_ok hrest
  obtain ⟨notes, hnotes⟩ := hfirst w
  have hprepare : (prepare (path w.output.blank) source).run { w with notes } = (.ok (), opened) := by
    rw [← hnotes]
    rw [forM_run_cons] at hopened
    rcases hact : (act first).run w with ⟨(e | _), now⟩
    · rw [hact] at hopened
      cases hopened
    · rw [hact] at hopened
      exact hopened
  obtain ⟨file, hcurrent, hwrote⟩ := wrote_of_prepare hprepare
  have hpushed := hinner opened file () filled hcurrent hfilled
  rw [forM_run_cons, hlast, close_run] at hclosed
  obtain rfl := (Prod.mk.inj hclosed).2
  obtain ⟨hblank, hwritten, hchanges, hcontents, hreaches, hfull⟩ := hwrote texts filled hpushed
  exact ⟨⟨[(_, file.location)], rfl, hblank, hwritten, hchanges, hcontents, hreaches, hfull⟩,
    fun _ => rfl⟩

theorem writes_nothing {step : Emit σ Unit} (h : step.Finds ()) : step.Writes fun _ => [] := by
  intro w now hrun
  obtain ⟨-, rfl⟩ := h w () now hrun
  exact ⟨.refl now.closed, id⟩

theorem Writes.of_closed {step : Emit σ Unit} {files : Output → List GeneratedFile}
    {w now : Workspace σ} (h : step.Writes files) (hclosed : w.output.current = none)
    (hrun : step.run w = (.ok (), now)) :
    w.Writes (files w.output.blank) now ∧ now.output.current = none := by
  obtain ⟨hfiles, hkept⟩ := h w now hrun
  have hnow := hkept hclosed
  rw [Workspace.closed_of_closed hclosed, Workspace.closed_of_closed hnow] at hfiles
  exact ⟨hfiles, hnow⟩

theorem Writes.bind {files more : Output → List GeneratedFile} {x y : Emit σ Unit}
    (hx : x.Writes files) (hy : y.Writes more) :
    (x >>= fun _ => y).Writes fun o => files o ++ more o := by
  intro w now hrun
  obtain ⟨_, middle, hfirst, hrest⟩ := run_bind_eq_ok hrun
  obtain ⟨hfiles, hclosed⟩ := hx w middle hfirst
  obtain ⟨hmore, hclosed'⟩ := hy middle now hrest
  rw [show middle.output.blank = w.output.blank from hfiles.blank] at hmore
  exact ⟨hfiles.trans hmore, hclosed' ∘ hclosed⟩

theorem writes_forM (h : ∀ a, (act a).Writes (files a)) (items : List α) :
    (items.forM act).Writes fun o => items.flatMap (files · o) := by
  induction items with
  | nil => exact writes_nothing (finds_pure ())
  | cons a rest ih => exact (h a).bind ih

theorem writes_append {xs ys : List α} {files more : Output → List GeneratedFile}
    (hxs : (xs.forM act).Writes files) (hys : (ys.forM act).Writes more) :
    ((xs ++ ys).forM act).Writes fun o => files o ++ more o := by
  rw [show (xs ++ ys).forM act = _ from List.forM_append]
  exact hxs.bind hys

theorem writes_flatMap {act : β → Emit σ Unit} {parts : α → List β}
    (h : ∀ a, ((parts a).forM act).Writes (files a)) (items : List α) :
    ((items.flatMap parts).forM act).Writes fun o => items.flatMap (files · o) := by
  induction items with
  | nil => exact writes_nothing (finds_pure ())
  | cons a rest ih =>
    simp only [List.flatMap_cons]
    exact writes_append (h a) ih

end Emit

/-! ## 3. Schema files -/

namespace Vocabulary

open FillingLemmas

variable {v : Vocabulary} {g G : Graph} (hgrows : g.files <+: G.files)

include hgrows

theorem target_mono {id : DefinitionId} {name : Option String} (h : v.target g id = .ok name) :
    v.target G id = .ok name := by
  unfold target at h ⊢
  cases hdefinition : g.definition? id with
  | none =>
    rw [hdefinition] at h
    cases h
  | some d =>
    have hdefinition' : G.definition? id = some d := by
      obtain ⟨f, hf, hd⟩ := Option.bind_eq_some_iff.1 hdefinition
      rw [Graph.definition?, Graph.file?_mono hgrows hf]
      exact hd
    rw [hdefinition] at h
    rw [hdefinition']
    cases d with
    | enumeration e => exact h
    | message m =>
      cases hfile : g.file? m.owner with
      | none =>
        simp only [hfile] at h
        cases h
      | some f =>
        simp only [hfile] at h
        simp only [Graph.file?_mono hgrows hfile]
        exact h

variable {field : String} {t : FieldType} {r : Rendered}

theorem element_mono {type : String} (h : v.element g field t = .ok type) :
    v.element G field t = .ok type := by
  cases t with
  | base b => exact h
  | map key value => cases h
  | reference package name id =>
    obtain ⟨target, htarget, hrest⟩ := bind_eq_ok.1 h
    exact bind_eq_ok.2 ⟨target, target_mono hgrows htarget, hrest⟩

theorem single_mono (h : v.single g field t = .ok r) : v.single G field t = .ok r := by
  cases t with
  | base b => exact h
  | map key value =>
    obtain ⟨k, hkey, hrest⟩ := bind_eq_ok.1 h
    obtain ⟨item, hvalue, hmap⟩ := bind_eq_ok.1 hrest
    exact bind_eq_ok.2 ⟨k, element_mono hgrows hkey,
      bind_eq_ok.2 ⟨item, element_mono hgrows hvalue, hmap⟩⟩
  | reference package name id =>
    obtain ⟨target, htarget, hrest⟩ := bind_eq_ok.1 h
    exact bind_eq_ok.2 ⟨target, target_mono hgrows htarget, hrest⟩

/-- The type that a field has stays when the graph grows. -/
theorem rendered_mono {x : Field} (h : v.fieldType g x = .ok r) : v.rendered G x = r := by
  have hmono : v.fieldType G x = .ok r := by
    unfold fieldType at h ⊢
    cases hcardinality : x.cardinality with
    | singular =>
      rw [hcardinality] at h
      exact single_mono hgrows h
    | repeated =>
      rw [hcardinality] at h
      obtain ⟨item, helement, hlist⟩ := bind_eq_ok.1 h
      exact bind_eq_ok.2 ⟨item, element_mono hgrows helement, hlist⟩
  rw [rendered, hmono]
  rfl

theorem finds_fieldType (v : Vocabulary) (x : Field) :
    (Emit.fieldType v g x : Emit σ Rendered).Finds (v.rendered G x) := by
  unfold Emit.fieldType
  cases htype : v.fieldType g x with
  | error e => exact fun w b now hrun => nomatch hrun
  | ok r =>
    rw [rendered_mono hgrows htype]
    exact Emit.finds_pure r

end Vocabulary

namespace Java

open Emit

/-- The lines that are added at an event. -/
def linesAt (g : Graph) (f : SchemaFile) : Event → List String
  | .beginMessage m => typeStart f "class" m.toDescribed
  | .field x => doc "  " x.comment ++ [fieldLine x (vocabulary.rendered g x)]
  | .endMessage _ => messageEnd
  | .beginEnum e => typeStart f "enum" e.toDescribed
  | .constant c isLast => constantLines c isLast
  | .endEnum e kept => enumEnd e kept
  | _ => []

theorem handle_beginDefinition_run (g : Graph) (f : SchemaFile) (d : Definition)
    (w : Workspace Unit) :
    (handle g f (.beginDefinition d)).run w =
      (prepare (sourcePath w.output.root w.output.extension f d.name) (some f)).run w := by
  simp only [handle, openDefinition, run_bind, run_get]
  rfl

section Events

variable {g G : Graph} (f : SchemaFile)

/-- Between the ends of a definition stand its start, its members and its end. -/
theorem writes_definition {α : Type} (d : Definition) {first last : Event} {each : α → Event}
    (items : List α) (hfirst : (handle g f first).Appends (linesAt G f first))
    (heach : ∀ x, (handle g f (each x)).Appends (linesAt G f (each x)))
    (hlast : (handle g f last).Appends (linesAt G f last)) :
    ((Event.beginDefinition d :: first :: items.map each ++
      [last, .endDefinition d]).forM (handle g f)).Writes fun o =>
        [sourceOf o f d.name (linesAt G f first ++
          items.flatMap (fun x => linesAt G f (each x)) ++ linesAt G f last)] := by
  have hinner : ((first :: items.map each ++ [last]).forM (handle g f)).Appends
      ((first :: items.map each ++ [last]).flatMap (linesAt G f)) := by
    refine appends_forM fun e he => ?_
    simp only [List.mem_append, List.mem_cons, List.mem_map, List.not_mem_nil, or_false] at he
    rcases he with (rfl | ⟨x, -, rfl⟩) | rfl
    · exact hfirst
    · exact heach x
    · exact hlast
  simp only [List.flatMap_append, List.flatMap_cons, List.flatMap_map, List.flatMap_nil,
    List.append_nil] at hinner
  have hwrites := writes_unit (fun o => sourcePath o.root o.extension f d.name)
    (fun w => ⟨w.notes, handle_beginDefinition_run g f d w⟩) hinner
    (show handle g f (.endDefinition d) = close from rfl)
  simpa [sourceOf] using hwrites

theorem writes_message (hgrows : g.files <+: G.files) (m : Message) :
    ((Event.ofMessage m).forM (handle g f)).Writes fun o =>
      [sourceOf o f m.name (classLines G f m)] :=
  writes_definition f (.message m) m.kept (appends_lines _)
    (fun x => (appends_lines _).bind fun _ =>
      (vocabulary.finds_fieldType hgrows x).bind_appends (appends_line _)) (appends_lines _)

theorem writes_enumeration (e : Enumeration) :
    ((Event.ofEnumeration e).forM (handle g f)).Writes fun o =>
      [sourceOf o f e.name (enumLines f e)] :=
  writes_definition (G := g) f (.enumeration e) (Event.withLast e.kept) (appends_lines _)
    (fun _ => appends_lines _) (appends_lines _)

end Events

/-- The events of a file: those of its definitions, and others that nothing is done at. -/
theorem ofFile_eq (f : SchemaFile) :
    Event.ofFile f = [.beginFile, .beginMessages f.messages] ++
      ((f.messages.filter (!·.isSkipped)).flatMap Event.ofMessage ++
        ([.endMessages f.messages, .beginEnums f.enums] ++
          ((f.enums.filter (!·.isSkipped)).flatMap Event.ofEnumeration ++
            [.endEnums f.enums, .endFile]))) := by
  simp [Event.ofFile]

theorem generates : target.Generates filesFor where
  accepts _ := rfl
  writes {g G} hgrows f := by
    have hquiet (events : List Event) (h : ∀ e ∈ events, handle g f e = pure ()) :
        (events.forM (handle g f)).Writes fun _ => [] := by
      refine writes_nothing (finds_forM fun e he => ?_)
      rw [h e he]
      exact finds_pure ()
    have hmessages := writes_flatMap (writes_message f hgrows) (f.messages.filter (!·.isSkipped))
    have henums := writes_flatMap (writes_enumeration (g := g) f) (f.enums.filter (!·.isSkipped))
    have hall := writes_append (hquiet [.beginFile, .beginMessages f.messages] (by simp [handle]))
      (writes_append hmessages (writes_append
        (hquiet [.endMessages f.messages, .beginEnums f.enums] (by simp [handle]))
        (writes_append henums (hquiet [.endEnums f.enums, .endFile] (by simp [handle])))))
    simp only [List.nil_append, List.append_nil] at hall
    rw [ofFile_eq]
    simp only [filesFor, List.map_eq_flatMap]
    exact hall

end Java

namespace Rust

open Emit

/-- The lines that are added at an event. -/
def linesAt (g : Graph) : Event → List String
  | .beginMessage m => structStart m
  | .field x => fieldLines x (vocabulary.rendered g x)
  | .endMessage m => structEnd m (m.kept.map fun x => defaultLine x (vocabulary.rendered g x))
  | .beginEnum e => enumStart e
  | .constant c _ => variantLines c
  | .endEnum e kept => enumEnd e kept
  | _ => []

theorem appends_handle {g G : Graph} (hgrows : g.files <+: G.files) (f : SchemaFile) {e : Event}
    (hfirst : e ≠ .beginFile) (hlast : e ≠ .endFile) : (handle g f e).Appends (linesAt G e) := by
  cases e with
  | beginFile => exact absurd rfl hfirst
  | endFile => exact absurd rfl hlast
  | beginMessage _ | beginEnum _ | constant _ _ | endEnum _ _ => exact appends_lines _
  | field x => exact (vocabulary.finds_fieldType hgrows x).bind_appends (appends_lines _)
  | endMessage m =>
    have hdefault (x : Field) : Finds (σ := List Child) (do
        return defaultLine x (← Emit.fieldType vocabulary g x))
        (defaultLine x (vocabulary.rendered G x)) :=
      (vocabulary.finds_fieldType hgrows x).bind (finds_pure _)
    exact (finds_mapM hdefault m.kept).bind_appends (appends_lines _)
  | _ => exact appends_nothing (finds_pure ())

theorem linesAt_message (g : Graph) (m : Message) :
    (Event.ofMessage m).flatMap (linesAt g) = structLines g m := by
  simp only [Event.ofMessage, List.flatMap_append, List.flatMap_cons, List.flatMap_map,
    List.flatMap_nil, List.append_nil, List.cons_append, linesAt, List.nil_append, structLines,
    List.append_assoc]

theorem withLast_map {α : Type} (items : List α) :
    (Event.withLast items).map (fun (a, _) => a) = items := by
  induction items with
  | nil => rfl
  | cons a rest ih => exact congrArg (a :: ·) ih

theorem linesAt_enumeration (g : Graph) (e : Enumeration) :
    (Event.ofEnumeration e).flatMap (linesAt g) = enumLines e := by
  have hconstants : ((Event.withLast e.kept).map fun (c, isLast) =>
      Event.constant c isLast).flatMap (linesAt g) = e.kept.flatMap variantLines := by
    rw [List.flatMap_map]
    show ((Event.withLast e.kept).flatMap fun p => variantLines p.1) = _
    rw [← List.flatMap_map, withLast_map]
  simp only [Event.ofEnumeration, List.flatMap_append, List.flatMap_cons, List.flatMap_nil,
    List.append_nil, List.cons_append, hconstants, linesAt, List.nil_append, enumLines,
    List.append_assoc]

/-- The events of a file between its first and its last one. -/
def innerEvents (f : SchemaFile) : List Event :=
  .beginMessages f.messages :: (f.messages.filter (!·.isSkipped)).flatMap Event.ofMessage ++
    .endMessages f.messages :: .beginEnums f.enums ::
    (f.enums.filter (!·.isSkipped)).flatMap Event.ofEnumeration ++ [.endEnums f.enums]

theorem ofFile_eq (f : SchemaFile) :
    Event.ofFile f = .beginFile :: innerEvents f ++ [.endFile] := by
  simp [Event.ofFile, innerEvents]

theorem linesAt_inner (g : Graph) (f : SchemaFile) :
    (innerEvents f).flatMap (linesAt g) =
      (f.messages.filter (!·.isSkipped)).flatMap (structLines g) ++
        (f.enums.filter (!·.isSkipped)).flatMap enumLines := by
  simp only [innerEvents, List.flatMap_append, List.flatMap_cons, List.flatMap_nil,
    List.append_nil, List.cons_append, List.flatMap_assoc, linesAt_message, linesAt_enumeration,
    linesAt, List.nil_append]

theorem generates : target.Generates fun o g f => [sourceOf o g f] where
  accepts _ := rfl
  writes {g G} hgrows f := by
    rw [ofFile_eq]
    refine writes_unit (fun o => sourcePath o.root o.extension f)
      (fun w => ⟨_, handle_beginFile_run g f w⟩) ?_ rfl
    rw [← linesAt_inner G f]
    refine appends_forM fun e he => appends_handle hgrows f ?_ ?_
    · rintro rfl
      simp [innerEvents, Event.ofMessage, Event.ofEnumeration] at he
    · rintro rfl
      simp [innerEvents, Event.ofMessage, Event.ofEnumeration] at he

/-! ## 4. Indexes -/

theorem writes_writeIndex (i : List String × List String) :
    (writeIndex i.1 i.2).Writes fun o => [indexOf o i] := by
  intro w now hrun
  unfold writeIndex at hrun
  rw [run_bind, run_get] at hrun
  obtain ⟨_, opened, hopened, hrest⟩ := run_bind_eq_ok hrun
  obtain ⟨_, filled, hfilled, hclosed⟩ := run_bind_eq_ok hrest
  obtain ⟨file, hcurrent, hwrote⟩ := wrote_of_prepare hopened
  have hpushed := appends_lines _ opened file () filled hcurrent hfilled
  rw [close_run] at hclosed
  obtain rfl := (Prod.mk.inj hclosed).2
  have hindex := hwrote _ filled hpushed
  exact ⟨⟨[(_, file.location)], rfl, hindex⟩, fun _ => rfl⟩

/-- At the end of a run the indexes of all modules noted down are written. -/
theorem writes_finish {w now : Workspace (List Child)} (hclosed : w.output.current = none)
    (h : finish.run w = (.ok (), now)) :
    w.Writes ((indexes w.notes).map (indexOf w.output.blank)) now := by
  rw [finish_run] at h
  have hindexes := writes_forM writes_writeIndex (indexes w.notes)
  obtain ⟨placed, hplaced, hblank, hwritten, hchanges, hcontents, hreaches, hfull⟩ :=
    (hindexes.of_closed (w := atEnd w) rfl h).1
  have hfiles : (atEnd w).files = w.files := Workspace.settled_of_closed hclosed
  rw [hfiles] at hchanges hreaches hfull
  refine ⟨placed, ?_, hblank, hwritten, hchanges, hcontents, hreaches, hfull⟩
  rw [hplaced, List.map_eq_flatMap]
  rfl

end Rust

end SchemaGen
