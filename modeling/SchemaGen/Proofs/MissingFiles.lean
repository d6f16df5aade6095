import SchemaGen.Proofs.ModuleTree

/-!
# File systems that lack files

A file system lags behind another one if it lacks some of its files and is like it otherwise: it has
the same directories and links, and the directories that files are missing in can be written to.
Contents do not matter. Then a path leads to the same place in both, whether something is there or
not, and what can be done in the one can be done in the other: a file that can be opened where it
is there can be made where it is missing.

Results:
1. `FileSystem.Lags.reaches_iff`: paths lead to the same places.
2. `Disk.openFile_ok_iff`, `Disk.makeDirectory_ok_iff`: when files and directories can be made.
3. `Disk.carries_makeDirectories`, `Disk.carries_opening`: changes that succeed in both.
4. `Disk.lags_of_opening`, `Disk.opening_behind`: opening files, one file system at a time.
-/

namespace SchemaGen

/-! ## Definitions -/

/-- What lies at a place, without its contents and without the names in it. -/
inductive Shape.Kind where
  | file (access : Access)
  | directory (access : Access)
  | link (target : Path)
deriving DecidableEq

/-- The kind of a shape. -/
def Shape.kind : Shape → Kind
  | .file access _ => .file access
  | .directory access _ => .directory access
  | .link target => .link target

namespace FileSystem

/-- The kind of what lies at a location. -/
def kind? (fs : FileSystem) (l : Location) : Option Shape.Kind :=
  (fs.shape? l).map Shape.kind

/-- What lies at `l` is of another kind now, and all else is as it was. -/
structure Turns (fs now : FileSystem) (l : Location) (kind : Shape.Kind) : Prop where
  workingDir : now.workingDir = fs.workingDir
  kinds : ∀ k, now.kind? k = if k = l then some kind else fs.kind? k

/-- A file or a directory can be added at `l`. -/
def HasRoom (fs : FileSystem) (l : Location) : Prop :=
  fs.kind? l = none ∧ fs.kind? l.dropLast = some (.directory .full)

/-- `fs` is like `fs'` but for files that it lacks, and there is room for them. -/
structure Lags (fs fs' : FileSystem) : Prop where
  root : fs.HasDirectory []
  workingDir : fs'.workingDir = fs.workingDir
  kinds : ∀ l, fs.kind? l = fs'.kind? l ∨ fs.HasRoom l ∧ fs'.kind? l = some (.file .full)

end FileSystem

/-- If the computation succeeds in the second of two states that `R` relates, it does so in the
first one too, with the same result, and `R` relates the states after it. -/
def CarriesOver {ε τ α : Type} (R : τ → τ → Prop) (x : ExceptT ε (StateM τ) α) : Prop :=
  ∀ t t' a now', R t t' → x.run t' = (.ok a, now') → ∃ now, x.run t = (.ok a, now) ∧ R now now'

/-- Nothing has to be made above `p`. -/
def FileSystem.HasAbove (fs : FileSystem) (p : Path) : Prop :=
  ∀ parent, p.parent? = some parent → parent.text = "" ∨ fs.isDirectory parent = true

/-- There is a file at `p`, and nothing has to be made above it. -/
structure FileSystem.HasFile (fs : FileSystem) (p : Path) : Prop where
  above : fs.HasAbove p
  file : ∃ l, fs.Reaches .reach p p.steps l ∧ fs.kind? l = some (.file .full)

/-! ## 1. Where paths lead -/

namespace FileSystem

variable {fs fs' fs'' : FileSystem} {l : Location}

theorem directory_iff_kind {access : Access} :
    (∃ names, fs.shape? l = some (.directory access names)) ↔
      fs.kind? l = some (.directory access) := by
  unfold kind?
  rcases fs.shape? l with _ | (_ | _ | _) <;> simp [Shape.kind]

theorem hasDirectory_iff_kind : fs.HasDirectory l ↔ ∃ w, fs.kind? l = some (.directory w) :=
  exists_congr fun _ => directory_iff_kind

theorem link_iff_kind {target : Path} :
    fs.shape? l = some (.link target) ↔ fs.kind? l = some (.link target) := by
  unfold kind?
  rcases fs.shape? l with _ | (_ | _ | _) <;> simp [Shape.kind]

theorem kind?_eq_none_iff : fs.kind? l = none ↔ fs.shape? l = none :=
  Option.map_eq_none_iff

theorem isSome_kind? : (fs.kind? l).isSome = (fs.shape? l).isSome :=
  Option.isSome_map

theorem kind?_of_node? {n : Node} (h : fs.node? l = some n) : fs.kind? l = some n.shape.kind := by
  rw [kind?, shape?_of_node? h]
  rfl

theorem file_iff_kind {access : Access} :
    (∃ contents, fs.shape? l = some (.file access contents)) ↔
      fs.kind? l = some (.file access) := by
  unfold kind?
  rcases fs.shape? l with _ | (_ | _ | _) <;> simp [Shape.kind]

theorem isWritable_iff_kind : fs.isWritable l = true ↔ fs.kind? l = some (.directory .full) := by
  unfold isWritable kind? shape?
  cases fs.node? l with
  | none => simp
  | some n => cases n <;> simp [Node.shape, Shape.kind]

/-- There is room under a new name if the directory may be changed. -/
theorem isWritable_iff_hasRoom {d : Location} {name : String}
    (hnone : fs.shape? (d ++ [name]) = none) :
    fs.isWritable d = true ↔ fs.HasRoom (d ++ [name]) := by
  rw [isWritable_iff_kind, HasRoom, List.dropLast_concat, kind?_eq_none_iff, hnone]
  simp

namespace Lags

theorem refl (hroot : fs.HasDirectory []) : fs.Lags fs :=
  ⟨hroot, rfl, fun _ => .inl rfl⟩

theorem kind?_of_directory (h : fs.Lags fs') {w : Access} :
    fs.kind? l = some (.directory w) ↔ fs'.kind? l = some (.directory w) := by
  rcases h.kinds l with heq | ⟨⟨hnone, -⟩, hfile⟩
  · rw [heq]
  · simp [hnone, hfile]

theorem trans (h : fs.Lags fs') (h' : fs'.Lags fs'') : fs.Lags fs'' := by
  refine ⟨h.root, h'.workingDir.trans h.workingDir, fun l => ?_⟩
  rcases h'.kinds l with heq | ⟨⟨hnone, hroom⟩, hfile⟩
  · rw [← heq]
    exact h.kinds l
  · rcases h.kinds l with heq | ⟨-, hfile'⟩
    · exact .inr ⟨⟨heq.trans hnone, h.kind?_of_directory.2 hroom⟩, hfile⟩
    · rw [hnone] at hfile'
      cases hfile'

theorem hasDirectory_iff (h : fs.Lags fs') : fs.HasDirectory l ↔ fs'.HasDirectory l := by
  simp only [hasDirectory_iff_kind, h.kind?_of_directory]

theorem sameLinks (h : fs.Lags fs') : fs.SameLinks fs' := by
  refine ⟨h.workingDir, fun l target => ?_⟩
  rw [link_iff_kind, link_iff_kind]
  rcases h.kinds l with heq | ⟨⟨hnone, -⟩, hfile⟩
  · rw [heq]
  · simp [hnone, hfile]

theorem isSome (h : fs.Lags fs') (hsome : (fs.shape? l).isSome) : (fs'.shape? l).isSome := by
  rw [← isSome_kind?] at hsome ⊢
  rcases h.kinds l with heq | ⟨⟨hnone, -⟩, -⟩
  · exact heq ▸ hsome
  · rw [hnone] at hsome
    cases hsome

end Lags

variable {purpose : Purpose} {steps : List String}

/-- Steps lead to the same place: where a file is missing, they could not go on anyway. -/
theorem Lags.leads_iff (h : fs.Lags fs') {n : Nat} {here : Location} :
    fs.Leads purpose n here steps l ↔ fs'.Leads purpose n here steps l :=
  ⟨.carry (fun _ => h.hasDirectory_iff.1) h.sameLinks,
    .carry (fun _ => h.hasDirectory_iff.2) h.sameLinks.symm⟩

/-- A path leads to the same place in both. -/
theorem Lags.reaches_iff (h : fs.Lags fs') {p : Path}
    (hsteps : p.isAbsolute = false → p.text ≠ "" → steps ≠ []) :
    fs.Reaches purpose p steps l ↔ fs'.Reaches purpose p steps l := by
  rw [FileSystem.reaches_iff, FileSystem.reaches_iff, h.sameLinks.startOf_eq]
  simp only [h.leads_iff]
  refine and_congr_right fun hrequest => and_congr_left fun ⟨n, hn, hleads⟩ => ?_
  have hroot := h.hasDirectory_iff.1 h.root
  unfold startOf at hleads ⊢
  split
  · exact iff_of_true h.root.isSome hroot.isSome
  · next habs =>
    -- A relative path takes a step, so it starts in a directory.
    rw [if_neg habs] at hleads
    have hdir := hleads.inside (hsteps (by simpa using habs) hrequest.notEmpty)
    exact iff_of_true (h.hasDirectory_iff.2 hdir).isSome hdir.isSome

end FileSystem

/-! ## 2. When files and directories can be made -/

namespace FileSystem

variable {fs fs' now now' : FileSystem} {l : Location}

theorem turns_put_file {access : Access} (h : fs.kind? l = some (.file access))
    (contents : ByteArray) : fs.Turns (fs.put l (.file access contents)) l (.file access) := by
  obtain ⟨before, hshape⟩ := file_iff_kind.2 h
  refine ⟨rfl, fun k => ?_⟩
  rw [kind?, shape?_put_file (node?_of_shape?_file hshape)]
  split <;> rfl

theorem turns_put_new (h : fs.HasRoom l) {m : Node} (hm : m.IsLeaf) :
    fs.Turns (fs.put l m) l m.shape.kind := by
  obtain ⟨hnone, hroom⟩ := h
  rcases List.eq_nil_or_concat l with rfl | ⟨d, name, rfl⟩
  · cases hnone
  rw [List.concat_eq_append] at hnone hroom ⊢
  rw [List.dropLast_concat] at hroom
  obtain ⟨access, names, hshape⟩ := hasDirectory_iff_kind.2 ⟨.full, hroom⟩
  have hnot := not_mem_names hshape (kind?_eq_none_iff.1 hnone)
  refine ⟨rfl, fun k => ?_⟩
  rw [kind?, shape?_put_new hm hshape hnot]
  split
  · rfl
  split
  · next heq =>
    rw [heq, kind?, hshape]
    rfl
  · rfl

/-- A file is put where one is or where there is room for it. -/
theorem turns_put (h : fs.kind? l = some (.file .full) ∨ fs.HasRoom l) (contents : ByteArray) :
    fs.Turns (fs.put l (.file .full contents)) l (.file .full) :=
  h.elim (turns_put_file · contents) fun hroom =>
    turns_put_new hroom (FileTreeLemmas.isLeaf_file .full contents)

theorem not_directory (h : fs.kind? l = some (.file .full) ∨ fs.HasRoom l) (w : Access) :
    fs.kind? l ≠ some (.directory w) := by
  rcases h with hfile | ⟨hnone, -⟩
  · simp [hfile]
  · simp [hnone]

/-- The same happens in both file systems, where no directory is. -/
theorem Lags.turns (h : fs.Lags fs') {kind : Shape.Kind}
    (hl : ∀ w, fs.kind? l ≠ some (.directory w)) (hnow : fs.Turns now l kind)
    (hnow' : fs'.Turns now' l kind) : now.Lags now' := by
  have hroot : [] ≠ l := by
    rintro rfl
    obtain ⟨w, hw⟩ := hasDirectory_iff_kind.1 h.root
    exact hl w hw
  refine ⟨?_, ?_, fun k => ?_⟩
  · rw [hasDirectory_iff_kind, hnow.kinds, if_neg hroot, ← hasDirectory_iff_kind]
    exact h.root
  · rw [hnow.workingDir, hnow'.workingDir, h.workingDir]
  · rw [HasRoom, hnow.kinds, hnow'.kinds, hnow.kinds]
    by_cases hk : k = l
    · rw [if_pos hk, if_pos hk]
      exact .inl rfl
    · rw [if_neg hk, if_neg hk]
      refine (h.kinds k).imp_right fun ⟨⟨hnone, hroom⟩, hfile⟩ => ⟨⟨hnone, ?_⟩, hfile⟩
      rw [if_neg, hroom]
      rintro rfl
      exact hl .full hroom

end FileSystem

namespace Disk

open FileSystem

variable {fs now : FileSystem} {p : Path}

/-- A directory can be made if there is room for it where the path leads. -/
theorem makeDirectory_ok_iff :
    (makeDirectory p).run fs = (.ok (), now) ↔
      ∃ l, fs.Reaches .name p p.pieces l ∧ fs.HasRoom l ∧ now = fs.put l .emptyDirectory := by
  rw [makeDirectory_run]
  unfold Reaches
  cases hlocate : fs.locate .name p p.pieces with
  | error e => exact ⟨nofun, nofun⟩
  | ok place =>
    have hshows := shows_of_locate hlocate
    cases place with
    | found m n =>
      have hkind := kind?_of_node? (show fs.node? m = some n from hshows)
      refine ⟨nofun, ?_⟩
      rintro ⟨_, ⟨_, hplace, rfl⟩, ⟨hnone, -⟩, -⟩
      obtain rfl := Except.ok.inj hplace
      rw [Place.location, hkind] at hnone
      cases hnone
    | vacant d name =>
      have hroom := isWritable_iff_hasRoom hshows.2.1
      simp only [add_run, Place.location, Except.ok.injEq]
      constructor
      · intro h
        split at h
        · next hwritable => exact ⟨_, ⟨_, rfl, rfl⟩, hroom.1 hwritable, (Prod.mk.inj h).2.symm⟩
        · cases h
      · rintro ⟨_, ⟨_, rfl, rfl⟩, hvacant, rfl⟩
        rw [if_pos (hroom.2 hvacant)]

/-- A file can be opened if its path leads to one that may be written, or to where there is room for
one. -/
theorem openFile_ok_iff (hroot : fs.HasDirectory []) {l : Location} :
    (openFile p).run fs = (.ok l, now) ↔
      fs.Reaches .write p p.steps l ∧ (fs.kind? l = some (.file .full) ∨ fs.HasRoom l) ∧
        now = fs.put l (.file .full .empty) := by
  rw [openFile_run]
  have hlinks (m : Location) : fs.Reaches .write p p.steps m → ¬ fs.HasLink m :=
    fun h => h.not_hasLink hroot (by simp)
  unfold Reaches at hlinks ⊢
  cases hlocate : fs.locate .write p p.steps with
  | error e => exact ⟨nofun, nofun⟩
  | ok place =>
    have hshows := shows_of_locate hlocate
    have hlink := hlinks place.location ⟨place, hlocate, rfl⟩
    cases place with
    | found m n =>
      have hnode : fs.node? m = some n := hshows
      have hkind := kind?_of_node? hnode
      cases n with
      | directory w entries =>
        refine ⟨nofun, ?_⟩
        rintro ⟨⟨_, hplace, rfl⟩, hor, -⟩
        obtain rfl := Except.ok.inj hplace
        simp [Place.location, HasRoom, hkind, Node.shape, Shape.kind] at hor
      | link target => exact absurd ⟨target, shape?_of_node? hnode⟩ hlink
      | file access before =>
        simp only
        constructor
        · intro h
          split at h
          · next hfull =>
            obtain ⟨hl, rfl⟩ := Prod.mk.inj h
            obtain rfl := Except.ok.inj hl
            exact ⟨⟨_, rfl, rfl⟩, .inl (hfull ▸ hkind), rfl⟩
          · cases h
        · rintro ⟨⟨_, hplace, rfl⟩, hor, rfl⟩
          obtain rfl := Except.ok.inj hplace
          have hfull : access = .full := by
            simpa [Place.location, HasRoom, hkind, Node.shape, Shape.kind] using hor
          rw [if_pos hfull]
          rfl
    | vacant d name =>
      have hroom := isWritable_iff_hasRoom hshows.2.1
      simp only [Except.ok.injEq]
      constructor
      · intro h
        split at h
        · next hwritable =>
          obtain ⟨hl, rfl⟩ := Prod.mk.inj h
          obtain rfl := Except.ok.inj hl
          exact ⟨⟨_, rfl, rfl⟩, .inr (hroom.1 hwritable), rfl⟩
        · cases h
      · rintro ⟨⟨_, rfl, rfl⟩, hor, rfl⟩
        have hvacant := hor.resolve_left (by simp [Place.location, kind?, hshows.2.1])
        rw [if_pos (hroom.2 hvacant)]
        rfl

end Disk

/-! ## 3. Changes that succeed in both -/

namespace FileSystem

variable {fs fs' : FileSystem} {p : Path} {steps : List String}

/-- What a path leads to, or a link to it, can also be named. -/
theorem Leads.name_of_reach {n : Nat} {here l : Location} (h : fs.Leads .reach n here steps l)
    (hl : (fs.shape? l).isSome) :
    ∃ n' ≤ n, ∃ m, fs.Leads .name n' here steps m ∧ (fs.shape? m).isSome := by
  induction h with
  | arrive => exact ⟨0, Nat.le_refl 0, _, .arrive, hl⟩
  | stay inside dot _ ih =>
    obtain ⟨n', hn, m, hm, hsome⟩ := ih hl
    exact ⟨n', hn, m, .stay inside dot hm, hsome⟩
  | up inside _ ih =>
    obtain ⟨n', hn, m, hm, hsome⟩ := ih hl
    exact ⟨n', hn, m, .up inside hm, hsome⟩
  | enter inside asked noLink last _ ih =>
    obtain ⟨n', hn, m, hm, hsome⟩ := ih hl
    exact ⟨n', hn, m, .enter inside asked.anywhere noLink last hm, hsome⟩
  | @jump _ _ _ _ rest _ inside asked link _ _ ih =>
    by_cases hrest : rest = []
    · subst hrest
      refine ⟨0, Nat.zero_le _, _, .named inside asked.anywhere link rfl, ?_⟩
      rw [link]
      rfl
    · obtain ⟨n', hn, m, hm, hsome⟩ := ih hl
      exact ⟨n' + 1, Nat.succ_le_succ hn, m,
        .jump inside asked.anywhere link (fun h => hrest h.2) hm, hsome⟩
  | named _ _ _ name => cases name

theorem named_of_isDirectory (h : fs.isDirectory p = true) :
    ∃ l, fs.Reaches .name p p.pieces l ∧ (fs.shape? l).isSome := by
  obtain ⟨l, hl, hdir⟩ := isDirectory_iff.1 h
  obtain ⟨hrequest, hstart, n, hn, hleads⟩ := reaches_iff.1 hl
  -- Without the slash at its end the path leads to the directory as well.
  obtain ⟨n₁, hn₁, m, hm, hsome⟩ : ∃ n₁ ≤ n, ∃ m, fs.Leads .reach n₁ (fs.startOf p) p.pieces m ∧
      (fs.shape? m).isSome := by
    unfold Path.steps at hleads
    split at hleads
    · obtain ⟨n₁, n₂, m, rfl, hfirst, hslash⟩ := hleads.split rfl
      exact ⟨n₁, Nat.le_add_right n₁ n₂, m, hfirst, (hslash.inside (by simp)).isSome⟩
    · exact ⟨n, Nat.le_refl n, l, hleads, hdir.isSome⟩
  obtain ⟨n₂, hn₂, k, hk, hkSome⟩ := hm.name_of_reach hsome
  exact ⟨k, reaches_iff.2 ⟨⟨hrequest.notEmpty, hrequest.noNull, fun _ => hrequest.short (by simp)⟩,
    hstart, n₂, Nat.le_trans hn₂ (Nat.le_trans hn₁ hn), hk⟩, hkSome⟩

theorem Lags.isDirectory_eq (h : fs.Lags fs') (p : Path) :
    fs.isDirectory p = fs'.isDirectory p := by
  rw [Bool.eq_iff_iff, isDirectory_iff, isDirectory_iff]
  refine exists_congr fun l => and_congr ?_ h.hasDirectory_iff
  exact h.reaches_iff DiskChangesLemmas.steps_ne_nil

theorem Lags.hasAbove_iff (h : fs.Lags fs') : fs.HasAbove p ↔ fs'.HasAbove p := by
  simp only [HasAbove, h.isDirectory_eq]

open ResolutionLemmas in
theorem kind?_step {t : Trail} (h : IsWay fs t) {access : Access} {entries : List (String × Node)}
    (hend : fs.endOf t = .directory access entries) (step : String) :
    fs.kind? (t.location ++ [step]) = (entries.lookup step).map (·.shape.kind) := by
  rw [kind?, shape?, node?_step h hend, Option.map_map]
  rfl

open ResolutionLemmas in
/-- If a walk misses something, it also misses it where more is missing. -/
theorem Lags.walk_notFound (h : fs.Lags fs') {purpose : Purpose} {links : Nat} {here here' : Trail}
    (hhere : IsWay fs here) (hhere' : IsWay fs' here') (hsame : here.location = here'.location)
    (hwalk : fs'.walk purpose links here' steps = .error .notFound) :
    fs.walk purpose links here steps = .error .notFound := by
  induction links using Nat.strongRecOn generalizing here here' steps with
  | _ links outer =>
  induction steps generalizing here here' with
  | nil =>
    rw [walk_nil] at hwalk
    cases hwalk
  | cons step rest ih =>
    obtain ⟨access', entries', hend'⟩ := endOf_of_walk (by rw [hwalk]; simp)
    obtain ⟨access, entries, hend⟩ := endOf_of_hasDirectory hhere
      (h.hasDirectory_iff.2 (hsame ▸ hasDirectory_of_endOf hhere' hend'))
    rcases step_cases hend' purpose step rest with hdot | rfl | asked | ⟨e, he, hrefused⟩
    · rw [walk_stay hend' hdot] at hwalk
      rw [walk_stay hend hdot]
      exact ih hhere hhere' hsame hwalk
    · rw [walk_up hend'] at hwalk
      rw [walk_up hend]
      refine ih (isWay_tail hhere) (isWay_tail hhere') ?_ hwalk
      rw [location_tail, location_tail, hsame]
    · have hkind := kind?_step hhere hend step
      have hkind' := kind?_step hhere' hend' step
      rw [← hsame] at asked hkind'
      rw [walk_asked hend' (hsame ▸ asked)] at hwalk
      rw [walk_asked hend asked]
      split at hwalk
      · next hlookup' =>
        rw [hlookup'] at hkind'
        have hnone : entries.lookup step = none := by
          rcases h.kinds (here.location ++ [step]) with heq | ⟨-, hfile⟩
          · exact Option.map_eq_none_iff.1 (hkind.symm.trans (heq.trans hkind'))
          · cases hkind'.symm.trans hfile
        rw [hnone]
        split at hwalk
        · cases hwalk
        · next hrest => exact if_neg hrest
      · next target hlookup' =>
        rw [hlookup'] at hkind'
        have hlink : entries.lookup step = some (.link target) := by
          rw [← node?_step hhere hend]
          exact node?_of_shape?_link ((h.sameLinks.links _ _).1 (link_iff_kind.2 hkind'))
        rw [hlink]
        split at hwalk
        · cases hwalk
        next hthrough =>
        simp only [if_neg hthrough]
        split at hwalk
        · cases hwalk
        · next fewer =>
          refine outer fewer (Nat.lt_succ_self _) (isWay_jump hhere target)
            (isWay_jump hhere' target) ?_ hwalk
          split
          · rfl
          · exact hsame
      · next n' hnolink hlookup' =>
        rw [hlookup'] at hkind'
        cases n' with
        | link target => exact absurd rfl (hnolink target)
        | file =>
          -- Behind a file there is nothing to be missed.
          cases rest with
          | nil =>
            rw [walk_nil] at hwalk
            cases hwalk
          | cons next others =>
            rw [walk_cons] at hwalk
            cases hwalk
        | directory w others =>
          obtain ⟨m, hm, hmKind⟩ := Option.map_eq_some_iff.1
            (hkind.symm.trans (h.kind?_of_directory.2 hkind'))
          have hway : IsWay fs ((step, m) :: here) := ⟨by rw [hend]; exact hm, hhere⟩
          have hway' : IsWay fs' ((step, .directory w others) :: here') :=
            ⟨by rw [hend']; exact hlookup', hhere'⟩
          rw [hm]
          cases m with
          | directory => exact ih hway hway' (by rw [location_cons, location_cons, hsame]) hwalk
          | file => cases hmKind
          | link => cases hmKind
    · rw [hrefused] at hwalk
      rcases he with rfl | rfl <;> cases hwalk

open ResolutionLemmas in
theorem Lags.locate_notFound (h : fs.Lags fs') {purpose : Purpose}
    (hlocate : fs'.locate purpose p steps = .error .notFound) :
    fs.locate purpose p steps = .error .notFound := by
  unfold locate at hlocate ⊢
  split
  · rfl
  next hempty =>
  rw [if_neg hempty] at hlocate
  split
  · next hnull =>
    rw [if_pos hnull] at hlocate
    cases hlocate
  next hnull =>
  rw [if_neg hnull] at hlocate
  split
  · next hlong =>
    rw [if_pos hlong] at hlocate
    cases hlocate
  next hlong =>
  rw [if_neg hlong, h.workingDir] at hlocate
  split
  · next start hstart =>
    obtain ⟨hway, hlocation⟩ := (wayTo?_root fs _).2 start hstart
    have hsome := h.isSome ((wayTo?_root fs _).1.1 (Option.isSome_of_eq_some hstart))
    obtain ⟨start', hstart'⟩ := Option.isSome_iff_exists.1 ((wayTo?_root fs' _).1.2 hsome)
    obtain ⟨hway', hlocation'⟩ := (wayTo?_root fs' _).2 start' hstart'
    rw [hstart'] at hlocate
    exact h.walk_notFound hway hway' (hlocation.trans hlocation'.symm) hlocate
  · rfl

end FileSystem

namespace CarriesOver

variable {ε τ α β : Type} {R : τ → τ → Prop}

theorem pure (a : α) : CarriesOver R (pure a : ExceptT ε (StateM τ) α) := by
  intro t t' b now' h hrun
  cases hrun
  exact ⟨t, rfl, h⟩

theorem throw (e : ε) : CarriesOver R (throw e : ExceptT ε (StateM τ) α) := by
  intro t t' b now' h hrun
  cases hrun

theorem bind {x : ExceptT ε (StateM τ) α} {f : α → ExceptT ε (StateM τ) β}
    (hx : CarriesOver R x) (hf : ∀ a, CarriesOver R (f a)) : CarriesOver R (x >>= f) := by
  intro t t' b now' h hrun
  obtain ⟨a, middle', hfirst, hrest⟩ := run_bind_eq_ok hrun
  obtain ⟨middle, hmiddle, hR⟩ := hx t t' a middle' h hfirst
  obtain ⟨now, hnow, hR'⟩ := hf a middle middle' b now' hR hrest
  refine ⟨now, ?_, hR'⟩
  rw [run_bind, hmiddle]
  exact hnow

theorem forM {act : α → ExceptT ε (StateM τ) Unit} (h : ∀ a, CarriesOver R (act a))
    (items : List α) : CarriesOver R (items.forM act) := by
  induction items with
  | nil => exact .pure ()
  | cons a rest ih => exact (h a).bind fun _ => ih

end CarriesOver

namespace Disk

open FileSystem

variable {fs fs' now : FileSystem} {p : Path}

/-! ### Directories -/

theorem unless_isDirectory_run (p : Path) (e : FileError) (fs : FileSystem) :
    (do unless ← isDirectory p do throw e : Disk Unit).run fs =
      if fs.isDirectory p then (.ok (), fs) else (.error e, fs) := by
  have hget : (isDirectory p).run fs = (.ok (fs.isDirectory p), fs) := rfl
  rw [run_bind, hget]
  cases fs.isDirectory p <;> rfl

theorem makeDirectory_of_error {e : FileError} (h : (makeDirectory p).run fs = (.error e, now)) :
    now = fs := by
  rw [makeDirectory_run] at h
  split at h
  · exact (Prod.mk.inj h).2.symm
  · rw [add_run] at h
    split at h
    · cases h
    · exact (Prod.mk.inj h).2.symm
  · exact (Prod.mk.inj h).2.symm

theorem makeDirectory_of_isDirectory (h : fs.isDirectory p = true) :
    (makeDirectory p).run fs = (.error .alreadyThere, fs) := by
  obtain ⟨l, ⟨place, hlocate, rfl⟩, hsome⟩ := named_of_isDirectory h
  rw [makeDirectory_run, hlocate]
  cases place with
  | found => rfl
  | vacant d name =>
    rw [Place.location, (shows_of_locate hlocate).2.1] at hsome
    cases hsome

/-- What is there does not have to be made. -/
theorem makeWithParents_of_isDirectory (h : fs.isDirectory p = true) (above : List Path) :
    (makeWithParents p above).run fs = (.ok (), fs) := by
  have hrun := makeDirectory_of_isDirectory h
  cases above with
  | nil =>
    rw [makeWithParents, ensure, run_tryCatch, hrun]
    simp only [unless_isDirectory_run, h, if_true]
  | cons parent others =>
    rw [makeWithParents, run_tryCatch, hrun]
    simp only [reduceCtorEq, if_false, unless_isDirectory_run, h, if_true]

theorem makeDirectories_of_isDirectory (h : fs.isDirectory p = true) :
    (makeDirectories p).run fs = (.ok (), fs) := by
  unfold makeDirectories
  cases p.text.isEmpty
  · exact makeWithParents_of_isDirectory h p.above
  · rfl

theorem pieces_ne_nil (habs : p.isAbsolute = false) (hp : p.text ≠ "") : p.pieces ≠ [] := by
  intro hpieces
  refine DiskChangesLemmas.steps_ne_nil habs hp ?_
  rw [Path.steps, if_neg (by simp [hpieces]), hpieces]

theorem carries_makeDirectory (p : Path) : CarriesOver Lags (makeDirectory p) := by
  intro fs fs' _ now' h hrun
  obtain ⟨l, hl, ⟨hnone, hroom⟩, rfl⟩ := makeDirectory_ok_iff.1 hrun
  have hnone' : fs.kind? l = none := by
    rcases h.kinds l with heq | ⟨⟨hnone, -⟩, -⟩
    · rw [heq, hnone]
    · exact hnone
  have hroom' : fs.HasRoom l := ⟨hnone', h.kind?_of_directory.2 hroom⟩
  refine ⟨_, makeDirectory_ok_iff.2 ⟨l, (h.reaches_iff pieces_ne_nil).2 hl, hroom', rfl⟩, ?_⟩
  exact h.turns (by simp [hnone']) (turns_put_new hroom' FileTreeLemmas.isLeaf_emptyDirectory)
    (turns_put_new ⟨hnone, hroom⟩ FileTreeLemmas.isLeaf_emptyDirectory)

theorem carries_ensure (p : Path) : CarriesOver Lags (ensure p) := by
  intro fs fs' _ now' h hrun
  rw [ensure, run_tryCatch] at hrun ⊢
  rcases hmake : (makeDirectory p).run fs' with ⟨(e | _), middle'⟩
  · obtain rfl := makeDirectory_of_error hmake
    rw [hmake] at hrun
    simp only [unless_isDirectory_run] at hrun
    split at hrun
    · next hdir =>
      cases hrun
      rw [← h.isDirectory_eq] at hdir
      refine ⟨fs, ?_, h⟩
      rw [makeDirectory_of_isDirectory hdir]
      simp only [unless_isDirectory_run, hdir, if_true]
    · cases hrun
  · rw [hmake] at hrun
    cases hrun
    obtain ⟨now, hnow, hlags⟩ := carries_makeDirectory p fs fs' () now' h hmake
    exact ⟨now, by rw [hnow], hlags⟩

theorem makeDirectory_notFound (h : fs.Lags fs')
    (hrun : (makeDirectory p).run fs' = (.error .notFound, now)) :
    (makeDirectory p).run fs = (.error .notFound, fs) := by
  have hlocate : fs'.locate .name p p.pieces = .error .notFound := by
    rw [makeDirectory_run] at hrun
    split at hrun
    · cases hrun
    · rw [add_run] at hrun
      split at hrun <;> cases hrun
    · next e he =>
      cases hrun
      exact he
  rw [makeDirectory_run, h.locate_notFound hlocate]

theorem carries_makeWithParents (p : Path) (above : List Path) :
    CarriesOver Lags (makeWithParents p above) := by
  induction above generalizing p with
  | nil => exact carries_ensure p
  | cons parent others ih =>
    intro fs fs' _ now' h hrun
    have hparents : CarriesOver Lags (do
        if parent.text ≠ "" then makeWithParents parent others
        ensure p) := by
      split
      · exact (ih parent).bind fun _ => carries_ensure p
      · exact carries_ensure p
    rw [makeWithParents, run_tryCatch] at hrun
    rcases hmake : (makeDirectory p).run fs' with ⟨(e | _), middle'⟩
    · obtain rfl := makeDirectory_of_error hmake
      rw [hmake] at hrun
      by_cases he : e = .notFound
      · subst he
        obtain ⟨now, hnow, hlags⟩ := hparents fs middle' () now' h hrun
        refine ⟨now, ?_, hlags⟩
        rw [makeWithParents, run_tryCatch, makeDirectory_notFound h hmake]
        exact hnow
      · simp only [if_neg he, unless_isDirectory_run] at hrun
        split at hrun
        · next hdir =>
          cases hrun
          rw [← h.isDirectory_eq] at hdir
          exact ⟨fs, makeWithParents_of_isDirectory hdir _, h⟩
        · cases hrun
    · rw [hmake] at hrun
      cases hrun
      obtain ⟨now, hnow, hlags⟩ := carries_makeDirectory p fs fs' () now' h hmake
      refine ⟨now, ?_, hlags⟩
      rw [makeWithParents, run_tryCatch, hnow]

theorem carries_makeDirectories (p : Path) : CarriesOver Lags (makeDirectories p) := by
  unfold makeDirectories
  cases p.text.isEmpty
  · exact carries_makeWithParents p p.above
  · exact .pure ()

/-! ### Files -/

theorem carries_openFile (p : Path) : CarriesOver Lags (openFile p) := by
  intro fs fs' l now' h hrun
  obtain ⟨hl, hkind, rfl⟩ := (openFile_ok_iff (h.hasDirectory_iff.1 h.root)).1 hrun
  have hreaches := (h.reaches_iff DiskChangesLemmas.steps_ne_nil).2 hl
  have hkind' : fs.kind? l = some (.file .full) ∨ fs.HasRoom l := by
    rcases h.kinds l with heq | ⟨hroom, -⟩
    · refine hkind.imp (heq.trans ·) fun hroom => ⟨heq.trans hroom.1, ?_⟩
      exact h.kind?_of_directory.2 hroom.2
    · exact .inr hroom
  refine ⟨_, (openFile_ok_iff h.root).2 ⟨hreaches, hkind', rfl⟩, ?_⟩
  exact h.turns (not_directory hkind') (turns_put hkind' _) (turns_put hkind _)

theorem carries_opening (p : Path) : CarriesOver Lags (opening p) := by
  unfold opening
  cases p.parent? with
  | none => exact carries_openFile p
  | some parent => exact (carries_makeDirectories parent).bind fun _ => carries_openFile p

end Disk

/-! ## 4. One file system at a time -/

namespace FileSystem

variable {fs fs' : FileSystem}

theorem kind?_append (fs : FileSystem) (l : Location) (text : String) (k : Location) :
    (fs.append l text).kind? k = fs.kind? k := by
  unfold append
  split
  · next access contents hnode =>
    have hkind := kind?_of_node? hnode
    rw [(turns_put_file hkind _).kinds]
    split
    · next heq => exact (heq ▸ hkind).symm
    · rfl
  · rfl

/-- Text that is added changes no kinds. -/
theorem Lags.append (h : fs.Lags fs') (l l' : Location) (text text' : String) :
    (fs.append l text).Lags (fs'.append l' text') := by
  have hdir (fs : FileSystem) (l : Location) (text : String) :
      (fs.append l text).workingDir = fs.workingDir := by
    unfold FileSystem.append
    split <;> rfl
  refine ⟨?_, ?_, fun k => ?_⟩
  · rw [hasDirectory_iff_kind, kind?_append, ← hasDirectory_iff_kind]
    exact h.root
  · rw [hdir, hdir, h.workingDir]
  · rw [HasRoom, kind?_append, kind?_append, kind?_append]
    exact h.kinds k

end FileSystem

namespace FileSystem

variable {fs : FileSystem} {l : Location}

/-- A path that does not lead to a directory can be written to. -/
theorem Leads.write_of_reach {n : Nat} {here : Location} {steps : List String}
    (h : fs.Leads .reach n here steps l) (hl : ¬ fs.HasDirectory l) :
    fs.Leads .write n here steps l := by
  induction h with
  | arrive => exact .arrive
  | stay inside dot _ ih => exact .stay inside dot (ih hl)
  | up inside _ ih => exact .up inside (ih hl)
  | @enter n here l step rest inside asked noLink last onward ih =>
    refine .enter inside ⟨asked.named, ?_, asked.short, by simp⟩ noLink last (ih hl)
    rintro ⟨-, rfl⟩
    have hslash : fs.Leads .reach n (here ++ [step]) ([] ++ [""]) l := onward
    exact hl (hslash.hasDirectory (.inl rfl))
  | @jump n here l step rest target inside asked link _ onward ih =>
    refine .jump inside ⟨asked.named, ?_, asked.short, by simp⟩ link (by simp) (ih hl)
    rintro ⟨-, rfl⟩
    exact hl (onward.hasDirectory (.inl rfl))
  | named _ _ _ name => cases name

theorem Reaches.write_of_reach {p : Path} {steps : List String} (h : fs.Reaches .reach p steps l)
    (hl : fs.kind? l = some (.file .full)) : fs.Reaches .write p steps l := by
  obtain ⟨hrequest, hstart, n, hn, hleads⟩ := reaches_iff.1 h
  have hdir : ¬ fs.HasDirectory l := by
    rw [hasDirectory_iff_kind, hl]
    simp
  exact reaches_iff.2 ⟨⟨hrequest.notEmpty, hrequest.noNull, fun _ => hrequest.short (by simp)⟩,
    hstart, n, hn, hleads.write_of_reach hdir⟩

end FileSystem

namespace Disk

open FileSystem

variable {fs fs' now : FileSystem} {p : Path} {l : Location}

theorem opening_of_hasAbove (h : fs.HasAbove p) : (opening p).run fs = (openFile p).run fs := by
  rw [opening_run]
  split
  · rfl
  · next parent hp =>
    have hmade : (makeDirectories parent).run fs = (.ok (), fs) := by
      rcases h parent hp with hempty | hdir
      · simp only [makeDirectories, hempty]
        rfl
      · exact makeDirectories_of_isDirectory hdir
    rw [hmade]

/-- A file system lags behind itself with a file more. -/
theorem lags_of_opening (hroot : fs.HasDirectory []) (habove : fs.HasAbove p)
    (h : (opening p).run fs = (.ok l, now)) : fs.Lags now := by
  rw [opening_of_hasAbove habove] at h
  obtain ⟨-, hkind, rfl⟩ := (openFile_ok_iff hroot).1 h
  have hturns := turns_put hkind .empty
  refine ⟨hroot, hturns.workingDir, fun k => ?_⟩
  rw [hturns.kinds]
  by_cases hk : k = l
  · subst hk
    rw [if_pos rfl]
    exact hkind.imp_right fun hroom => ⟨hroom, rfl⟩
  · rw [if_neg hk]
    exact .inl rfl

/-- A file that is there in the one can be opened in the other, which may lack it. -/
theorem opening_behind (h : fs.Lags fs') (hp : fs'.HasFile p) :
    ∃ l now, (opening p).run fs = (.ok l, now) ∧ now.Lags fs' := by
  obtain ⟨l, hl, hfile⟩ := hp.file
  have hkind : fs.kind? l = some (.file .full) ∨ fs.HasRoom l :=
    (h.kinds l).imp (·.trans hfile) And.left
  have hsame : fs'.Turns fs' l (.file .full) := by
    refine ⟨rfl, fun k => ?_⟩
    split
    · next heq => rw [heq, hfile]
    · rfl
  rw [opening_of_hasAbove (h.hasAbove_iff.2 hp.above)]
  exact ⟨l, _, (openFile_ok_iff h.root).2
    ⟨(h.reaches_iff DiskChangesLemmas.steps_ne_nil).2 (hl.write_of_reach hfile), hkind, rfl⟩,
    h.turns (not_directory hkind) (turns_put hkind _) hsame⟩

end Disk

end SchemaGen
