import SchemaGen.FileSystem.Change
import SchemaGen.Proofs.Resolution
import SchemaGen.Proofs.Steps

/-!
# What writing changes on a disk

Making directories changes no file, opening a file changes at most that file, and so does adding to
it. All of them let the file system grow and keep it tidy, also when they fail halfway.

Results:
1. `Changes`: a change that touches only some files, and that composes.
2. `makeDirectories_changes`: making directories touches no file.
3. `openFile_of_ok`, `openFile_of_error`: opening a file empties it where its path leads.
4. `append_changes`: adding to a file.
-/

namespace SchemaGen

/-! ## 1. Changes -/

/-- `after` comes from `before` by making directories and by writing to the files `touched`. -/
structure FileSystem.Changes (before after : FileSystem) (touched : List Location) : Prop where
  grows : before.HasDirectory [] → before.Grows after
  contents : ∀ l, l ∉ touched → after.contents? l = before.contents? l
  tidy : before.IsTidy → after.IsTidy

namespace FileSystem

theorem Changes.refl (fs : FileSystem) (touched : List Location) : fs.Changes fs touched :=
  ⟨fun _ => .refl fs, fun _ _ => rfl, id⟩

variable {fs : FileSystem} {l d : Location} {name : String} {purpose : Purpose}
  {steps : List String}

theorem Changes.trans {fs' fs'' : FileSystem} {touched touched' : List Location}
    (h : fs.Changes fs' touched) (h' : fs'.Changes fs'' touched') :
    fs.Changes fs'' (touched ++ touched') := by
  refine ⟨fun hroot => ?_, fun l hl => ?_, fun htidy => h'.tidy (h.tidy htidy)⟩
  · have hgrows := h.grows hroot
    exact hgrows.trans (h'.grows (hroot.grows hgrows))
  · rw [List.mem_append, not_or] at hl
    rw [h'.contents l hl.2, h.contents l hl.1]

theorem contents?_eq_none_of_shape? {s : Option Shape} (h : fs.shape? l = s)
    (hs : ∀ access contents, s ≠ some (.file access contents)) : fs.contents? l = none := by
  rw [Option.eq_none_iff_forall_not_mem]
  intro contents hcontents
  obtain ⟨access, hshape, -⟩ := contents?_eq_some_iff.1 hcontents
  exact hs access contents (h.symm.trans hshape)

/-- Putting something without entries under a new name. -/
theorem changes_put_new {m : Node} (hm : m.IsLeaf) (hlink : ∀ target, m ≠ .link target)
    (hd : fs.HasDirectory d) (hnew : fs.shape? (d ++ [name]) = none) (hname : IsPlainName name) :
    fs.Changes (fs.put (d ++ [name]) m) [d ++ [name]] := by
  obtain ⟨access, names, hshape⟩ := hd
  have hnot := not_mem_names hshape hnew
  refine ⟨fun _ => grows_put_new hm hlink hshape hnot, fun l hl => ?_,
    fun htidy => htidy.put_new hm hshape hnot hname⟩
  have hl' : l ≠ d ++ [name] := by simpa using hl
  have hput := shape?_put_new (m := m) hm hshape hnot l
  rw [if_neg hl'] at hput
  by_cases heq : l = d
  · subst heq
    rw [if_pos rfl] at hput
    rw [contents?_eq_none_of_shape? hput (by simp), contents?_eq_none_of_shape? hshape (by simp)]
  · rw [if_neg heq] at hput
    rw [contents?, contents?, hput]

/-- Putting a file in the place of a file. -/
theorem changes_put_file {access : Access} {before : ByteArray}
    (h : fs.node? l = some (.file access before)) (after : ByteArray) :
    fs.Changes (fs.put l (.file access after)) [l] := by
  refine ⟨fun _ => grows_put_file h after, fun k hk => ?_, fun htidy => htidy.put_file h after⟩
  have hk' : k ≠ l := by simpa using hk
  rw [contents?, contents?, shape?_put_file h, if_neg hk']

/-! ### Places that paths lead to -/

theorem HasDirectory.not_hasLink (h : fs.HasDirectory l) : ¬ fs.HasLink l := by
  obtain ⟨access, names, hdir⟩ := h
  rintro ⟨target, hlink⟩
  rw [hdir] at hlink
  cases hlink

theorem HasDirectory.isSome (h : fs.HasDirectory l) : (fs.shape? l).isSome := by
  obtain ⟨access, names, hdir⟩ := h
  rw [hdir]
  rfl

/-- What lies above a directory is a directory. -/
theorem HasDirectory.dropLast (h : fs.HasDirectory l) : fs.HasDirectory l.dropLast := by
  rcases List.eq_nil_or_concat l with rfl | ⟨front, last, rfl⟩
  · exact h
  · rw [List.concat_eq_append] at h ⊢
    rw [List.dropLast_concat]
    obtain ⟨access, names, hshape⟩ := h
    exact exists_directory_above hshape (by simp)

/-- Links are followed to their ends. -/
theorem Leads.not_hasLink (hroot : ¬ fs.HasLink []) (hname : purpose ≠ .name) {n : Nat}
    {here : Location} (h : fs.Leads purpose n here steps l) (hhere : ¬ fs.HasLink here) :
    ¬ fs.HasLink l := by
  induction h with
  | arrive => exact hhere
  | stay _ _ _ ih => exact ih hhere
  | up inside _ ih => exact ih inside.dropLast.not_hasLink
  | enter _ _ noLink _ _ ih => exact ih noLink
  | jump inside _ _ _ _ ih =>
    refine ih ?_
    split
    · exact hroot
    · exact inside.not_hasLink
  | named _ _ _ name => exact absurd name hname

/-- A place where nothing is has a plain name, since the path has spelled it. -/
theorem Leads.plain_of_absent {n : Nat} {here : Location} (h : fs.Leads purpose n here steps l)
    (hsteps : ∀ step ∈ steps, '/' ∉ step.toList) (hhere : (fs.shape? here).isSome)
    (hl : fs.shape? l = none) : ∃ d name, l = d ++ [name] ∧ IsPlainName name := by
  induction h with
  | arrive => simp [hl] at hhere
  | stay _ _ _ ih => exact ih (fun s hs => hsteps s (List.mem_cons_of_mem _ hs)) hhere hl
  | up inside _ ih =>
    exact ih (fun s hs => hsteps s (List.mem_cons_of_mem _ hs)) inside.dropLast.isSome hl
  | @enter _ here _ step _ inside asked _ last onward ih =>
    by_cases hsome : (fs.shape? (here ++ [step])).isSome
    · exact ih (fun s hs => hsteps s (List.mem_cons_of_mem _ hs)) hsome hl
    · obtain rfl := last (Option.not_isSome_iff_eq_none.1 hsome)
      cases onward
      obtain ⟨h1, h2, h3⟩ := asked.named
      exact ⟨here, step, rfl, h1, h2, h3, hsteps step List.mem_cons_self⟩
  | jump inside _ _ _ _ ih =>
    refine ih (fun s hs => ?_) ?_ hl
    · rcases List.mem_append.1 hs with hs | hs
      · exact LocationLemmas.not_mem_of_mem_steps hs
      · exact hsteps s (List.mem_cons_of_mem _ hs)
    · split
      · rfl
      · exact inside.isSome
  | named _ _ link _ => simp [link] at hl

theorem plain_of_vacant {p : Path} (hsteps : ∀ step ∈ steps, '/' ∉ step.toList)
    (h : fs.locate purpose p steps = .ok (.vacant d name)) : IsPlainName name := by
  obtain ⟨-, hstart, n, -, hleads⟩ := reaches_iff.1 ⟨_, h, rfl⟩
  obtain ⟨d', name', heq, hname⟩ := hleads.plain_of_absent hsteps hstart (shows_of_locate h).2.1
  obtain ⟨-, hlast⟩ := List.append_inj' (show d ++ [name] = d' ++ [name'] from heq) rfl
  rw [List.singleton_inj.1 hlast]
  exact hname

end FileSystem

namespace DiskChangesLemmas

theorem steps_ne_nil {p : Path} (habs : p.isAbsolute = false) (hp : p.text ≠ "") :
    p.steps ≠ [] := by
  have hpieces : p.pieces ≠ [] := by
    obtain ⟨c, cs, htext⟩ := List.exists_cons_of_ne_nil (l := p.text.toList) (by simpa using hp)
    have hc : c ≠ '/' := by
      rintro rfl
      simp [Path.isAbsolute, htext] at habs
    simp only [Path.pieces, Text.words, htext, Text.split, if_neg hc]
    split <;> simp
  unfold Path.steps
  split
  · simp
  · exact hpieces

theorem not_mem_of_mem_pieces {p : Path} {step : String} (h : step ∈ p.pieces) :
    '/' ∉ step.toList :=
  (LocationLemmas.mem_words h).2

end DiskChangesLemmas

namespace FileSystem

/-- What a path leads to is no link, if the root of the file system is none. -/
theorem Reaches.not_hasLink {fs : FileSystem} (hroot : fs.HasDirectory []) {purpose : Purpose}
    (hname : purpose ≠ .name) {p : Path} {l : Location} (h : fs.Reaches purpose p p.steps l) :
    ¬ fs.HasLink l := by
  obtain ⟨hrequest, -, n, -, hleads⟩ := reaches_iff.1 h
  refine hleads.not_hasLink hroot.not_hasLink hname ?_
  unfold startOf
  split
  · exact hroot.not_hasLink
  · next habs =>
    -- A relative path takes a step, and the first one is taken in a directory.
    have hsteps := DiskChangesLemmas.steps_ne_nil (by simpa using habs) hrequest.notEmpty
    rw [startOf, if_neg habs] at hleads
    exact (hleads.inside hsteps).not_hasLink

end FileSystem

/-! ## 2. Making directories -/

namespace Disk

variable {α β : Type}

theorem add_run (d : Location) (name : String) (n : Node) (fs : FileSystem) :
    (add d name n).run fs =
      if fs.isWritable d then (.ok (), fs.put (d ++ [name]) n) else (.error .notPermitted, fs) := by
  have hget : (get : Disk FileSystem).run fs = (.ok fs, fs) := rfl
  simp only [add, run_bind, hget]
  cases fs.isWritable d <;> rfl

theorem makeDirectory_run (p : Path) (fs : FileSystem) :
    (makeDirectory p).run fs =
      match fs.locate .name p p.pieces with
      | .ok (.found _ _) => (.error .alreadyThere, fs)
      | .ok (.vacant d name) => (add d name .emptyDirectory).run fs
      | .error e => (.error e, fs) := by
  have hget : (get : Disk FileSystem).run fs = (.ok fs, fs) := rfl
  simp only [makeDirectory, run_bind, hget]
  cases fs.locate .name p p.pieces with
  | error e => rfl
  | ok place => cases place <;> rfl

theorem openFile_run (p : Path) (fs : FileSystem) :
    (openFile p).run fs =
      match fs.locate .write p p.steps with
      | .ok (.found _ (.directory ..)) => (.error .isDirectory, fs)
      | .ok (.found l (.file access _)) =>
        if access = .full then (.ok l, fs.put l (.file .full .empty)) else (.error .notPermitted, fs)
      | .ok (.found _ (.link _)) => (.error .tooManyLinks, fs)
      | .ok (.vacant d name) =>
        if fs.isWritable d then (.ok (d ++ [name]), fs.put (d ++ [name]) (.file .full .empty))
        else (.error .notPermitted, fs)
      | .error e => (.error e, fs) := by
  have hget : (get : Disk FileSystem).run fs = (.ok fs, fs) := rfl
  simp only [openFile, run_bind, hget]
  cases fs.locate .write p p.steps with
  | error e => rfl
  | ok place =>
    cases place with
    | found l n =>
      cases n with
      | file access contents => cases access <;> rfl
      | directory | link => rfl
    | vacant d name =>
      simp only [run_bind, add_run]
      cases fs.isWritable d <;> rfl

/-- The change touches no file, whatever comes of it. -/
def Furnishes (change : Disk α) : Prop :=
  ∀ fs : FileSystem, fs.Changes (change.run fs).2 []

theorem Furnishes.bind {x : Disk α} {f : α → Disk β} (hx : Furnishes x)
    (hf : ∀ a, Furnishes (f a)) : Furnishes (x >>= f) := by
  intro fs
  have hfirst := hx fs
  rw [run_bind]
  rcases hrun : x.run fs with ⟨(e | a), after⟩
  · rw [hrun] at hfirst
    exact hfirst
  · rw [hrun] at hfirst
    exact hfirst.trans (hf a after)

theorem Furnishes.tryCatch {x : Disk α} {handler : FileError → Disk α} (hx : Furnishes x)
    (hhandler : ∀ e, Furnishes (handler e)) : Furnishes (tryCatch x handler) := by
  intro fs
  have hfirst := hx fs
  rw [run_tryCatch]
  rcases hrun : x.run fs with ⟨(e | a), after⟩
  · rw [hrun] at hfirst
    exact hfirst.trans (hhandler e after)
  · rw [hrun] at hfirst
    exact hfirst

theorem furnishes_pure (a : α) : Furnishes (pure a) :=
  fun fs => .refl fs []

theorem furnishes_throw (e : FileError) : Furnishes (throw e : Disk α) :=
  fun fs => .refl fs []

theorem furnishes_makeDirectory (p : Path) : Furnishes (makeDirectory p) := by
  intro fs
  rw [makeDirectory_run]
  split
  · exact .refl fs []
  · next d name hlocate =>
    rw [add_run]
    split
    · obtain ⟨hdir, hnone, -⟩ := FileSystem.shows_of_locate hlocate
      have hname := FileSystem.plain_of_vacant
        (fun _ => DiskChangesLemmas.not_mem_of_mem_pieces) hlocate
      have hchanges := FileSystem.changes_put_new FileTreeLemmas.isLeaf_emptyDirectory
        (by simp [Node.emptyDirectory]) hdir hnone hname
      refine ⟨hchanges.grows, fun l _ => ?_, hchanges.tidy⟩
      by_cases hl : l = d ++ [name]
      · -- A new directory is no file, and nothing was there before.
        obtain ⟨access, names, hshape⟩ := hdir
        have hput := FileSystem.shape?_put_new (k := l) FileTreeLemmas.isLeaf_emptyDirectory hshape
          (FileSystem.not_mem_names hshape hnone)
        rw [if_pos hl] at hput
        rw [FileSystem.contents?_eq_none_of_shape? hput (by simp [Node.emptyDirectory, Node.shape]),
          FileSystem.contents?_eq_none_of_shape? (hl ▸ hnone) (by simp)]
      · exact hchanges.contents l (by simpa using hl)
    · exact .refl fs []
  · exact .refl fs []

theorem furnishes_unless_isDirectory (p : Path) (e : FileError) :
    Furnishes (do unless ← isDirectory p do throw e) := by
  refine Furnishes.bind (fun fs => .refl fs []) fun b => ?_
  cases b
  · exact furnishes_throw e
  · exact furnishes_pure ()

theorem furnishes_makeWithParents (p : Path) (above : List Path) :
    Furnishes (makeWithParents p above) := by
  induction above generalizing p with
  | nil =>
    exact (furnishes_makeDirectory p).tryCatch fun e => furnishes_unless_isDirectory p e
  | cons parent others ih =>
    refine (furnishes_makeDirectory p).tryCatch fun e => ?_
    have hagain : Furnishes (tryCatch (makeDirectory p) fun e => do
        unless ← isDirectory p do throw e) :=
      (furnishes_makeDirectory p).tryCatch fun e => furnishes_unless_isDirectory p e
    split
    · split
      · exact (ih parent).bind fun _ => hagain
      · exact hagain
    · exact furnishes_unless_isDirectory p e

theorem makeDirectories_changes (p : Path) (fs : FileSystem) :
    fs.Changes ((makeDirectories p).run fs).2 [] := by
  unfold makeDirectories
  cases p.text.isEmpty
  · exact furnishes_makeWithParents p p.above fs
  · exact .refl fs []

/-! ## 3. Opening files -/

variable {p : Path} {fs : FileSystem}

/-- A file that was opened is empty and lies where its path leads. -/
theorem openFile_of_ok {after : FileSystem} {l : Location}
    (h : (openFile p).run fs = (.ok l, after)) :
    fs.Changes after [l] ∧ after.shape? l = some (.file .full .empty) ∧
      (fs.HasDirectory [] → after.Reaches .write p p.steps l) := by
  rw [openFile_run] at h
  split at h
  · cases h
  · next m access before hlocate =>
    split at h
    · next hfull =>
      obtain ⟨hl, rfl⟩ := Prod.mk.inj h
      obtain rfl := Except.ok.inj hl
      subst hfull
      have hnode : fs.node? m = some (.file .full before) := FileSystem.shows_of_locate hlocate
      have hchanges := FileSystem.changes_put_file hnode .empty
      exact ⟨hchanges, by rw [FileSystem.shape?_put_file hnode, if_pos rfl],
        fun hroot => FileSystem.Reaches.grows (hchanges.grows hroot) ⟨_, hlocate, rfl⟩⟩
    · cases h
  · cases h
  · next d name hlocate =>
    split at h
    · obtain ⟨hl, rfl⟩ := Prod.mk.inj h
      obtain rfl := Except.ok.inj hl
      obtain ⟨hdir, hnone, -⟩ := FileSystem.shows_of_locate hlocate
      have hname := FileSystem.plain_of_vacant
        (fun _ => LocationLemmas.not_mem_of_mem_steps) hlocate
      have hchanges := FileSystem.changes_put_new (FileTreeLemmas.isLeaf_file .full .empty)
        (by simp) hdir hnone hname
      have hshape : (fs.put (d ++ [name]) (.file .full .empty)).shape? (d ++ [name]) =
          some (.file .full .empty) := by
        obtain ⟨access, names, hnames⟩ := hdir
        rw [FileSystem.shape?_put_new (FileTreeLemmas.isLeaf_file .full .empty) hnames
          (FileSystem.not_mem_names hnames hnone), if_pos rfl]
        rfl
      exact ⟨hchanges, hshape,
        fun hroot => FileSystem.Reaches.grows (hchanges.grows hroot) ⟨_, hlocate, rfl⟩⟩
    · cases h
  · cases h

theorem openFile_of_error {after : FileSystem} {e : FileError}
    (h : (openFile p).run fs = (.error e, after)) : after = fs := by
  rw [openFile_run] at h
  split at h
  · exact (Prod.mk.inj h).2.symm
  · split at h
    · cases h
    · exact (Prod.mk.inj h).2.symm
  · exact (Prod.mk.inj h).2.symm
  · split at h
    · cases h
    · exact (Prod.mk.inj h).2.symm
  · exact (Prod.mk.inj h).2.symm

end Disk

/-! ## 4. Adding to files -/

namespace FileSystem

/-- Texts that are added one after the other are added as one. -/
theorem append_append (fs : FileSystem) (l : Location) (text more : String) :
    (fs.append l text).append l more = fs.append l (text ++ more) := by
  cases hnode : fs.node? l with
  | none => simp [append, hnode]
  | some n =>
    cases n with
    | file access contents =>
      have hput (m : Node) : (fs.put l m).node? l = some m := FileTreeLemmas.at?_put hnode m
      have hputs (m k : Node) : (fs.put l k).put l m = fs.put l m :=
        congrArg (FileSystem.mk · fs.workingDir) (FileTreeLemmas.put_put hnode m k)
      simp [append, hnode, hput, hputs, ByteArray.append_assoc]
    | directory => simp [append, hnode]
    | link => simp [append, hnode]

theorem append_empty (fs : FileSystem) (l : Location) : fs.append l "" = fs := by
  unfold append
  split
  · next access contents hnode =>
    have hcontents : contents ++ "".toUTF8 = contents := ByteArray.append_empty
    rw [hcontents]
    exact congrArg (FileSystem.mk · fs.workingDir) (FileTreeLemmas.put_self hnode)
  · rfl

theorem append_changes (fs : FileSystem) (l : Location) (text : String) :
    fs.Changes (fs.append l text) [l] := by
  unfold append
  split
  · next access contents hnode => exact changes_put_file hnode _
  · exact .refl fs [l]

theorem shape?_append {fs : FileSystem} {l : Location} {access : Access} {contents : ByteArray}
    (h : fs.shape? l = some (.file access contents)) (text : String) :
    (fs.append l text).shape? l = some (.file access (contents ++ text.toUTF8)) := by
  have hnode := node?_of_shape?_file h
  rw [append, hnode]
  exact (shape?_put_file hnode _ l).trans (if_pos rfl)

theorem contents?_append (fs : FileSystem) (l : Location) (text : String) :
    (fs.append l text).contents? l = (fs.contents? l).map (· ++ text.toUTF8) := by
  rcases hshape : fs.shape? l with _ | (⟨access, contents⟩ | _ | _)
  case some.file =>
    rw [contents?, contents?, shape?_append hshape, hshape]
    cases access <;> rfl
  all_goals
    have hkept : fs.append l text = fs := by
      unfold append
      split
      · next hnode =>
        rw [shape?_of_node? hnode] at hshape
        cases hshape
      · rfl
    rw [hkept, contents?, hshape]
    rfl

end FileSystem

end SchemaGen
