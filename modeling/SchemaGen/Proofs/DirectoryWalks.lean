import SchemaGen.Proofs.RootExpansion

/-!
# Walks over directories

A root that is a directory is walked: its entries come in the order of their names, directories are
entered where they stand, names with a leading dot are passed over, and links are not followed. So
the schema files below it come in the lexicographic order of the names that lead to them.

A directory whose path is too long for a request cannot be listed. Then nothing below it is found,
and the walk goes on behind it. Paths get longer with each level, so no more levels can be listed
than the walk looks at.

Results:
1. `Path.pieces_descend`, `Path.size_descend`: names behind a path.
2. `Plan.filesWithin_eq`, `Plan.sorted_namesWithin`: a walk in terms of names, and their order.
3. `Plan.mem_namesWithin_iff`: what a walk finds.
4. `Run.walk_visits`: what a run takes up when its root is a directory.
-/

namespace SchemaGen

open scoped List
open RootExpansionLemmas

variable {σ : Type}

/-! ## Definitions -/

/-- The path with names behind it. -/
def Path.descend (p : Path) (names : List String) : Path :=
  names.foldl (· / ·) p

/-- The path leads to a directory that may be listed. -/
def FileSystem.CanList (fs : FileSystem) (dir : Path) : Prop :=
  ∃ d access entries, fs.Reaches .reach dir dir.steps d ∧
    fs.node? d = some (.directory access entries) ∧ access ≠ .none

/-- The names lead from the directory `dir` to a schema file that is not hidden. -/
structure Plan.IsSchemaFileBelow (plan : Plan σ) (fs : FileSystem) (dir : Path)
    (names : List String) : Prop where
  below : names ≠ []
  /-- There are no links on the way. -/
  isFile : ∃ d access contents, fs.Reaches .reach dir dir.steps d ∧
    fs.node? (d ++ names) = some (.file access contents)
  shown : ∀ name ∈ names, name.toList.head? ≠ some '.'
  extension : (dir.descend names).extension? = some plan.schemaExt
  /-- The directories on the way can be listed. -/
  listed : ∀ front back, names = front ++ back → back ≠ [] →
    fs.CanList (dir.descend front)

/-- The names of the root files that an entry of the directory `dir` stands for. -/
def Plan.namesOfEntry (plan : Plan σ) (below : Path → List (List String)) (dir : Path)
    (e : String × Node) : List (List String) :=
  if e.1.toList.head? = some '.' then []
  else
    match e.2 with
    | .directory .. => (below (dir / e.1)).map (e.1 :: ·)
    | .file .. => if (dir / e.1).extension? = some plan.schemaExt then [[e.1]] else []
    | .link _ => []

/-- The names that lead to the schema files below a directory, down to `depth` levels. -/
def Plan.namesWithin (plan : Plan σ) (fs : FileSystem) : (depth : Nat) → Path → List (List String)
  | 0, _ => []
  | depth + 1, dir => (fs.list dir).flatMap (plan.namesOfEntry (plan.namesWithin fs depth) dir)

/-! ## 1. Names behind a path -/

namespace Path

theorem pieces_descend {names : List String} (h : ∀ name ∈ names, IsPlainName name) (p : Path) :
    (p.descend names).pieces = p.pieces ++ names := by
  induction names generalizing p with
  | nil => exact (List.append_nil _).symm
  | cons name names ih =>
    obtain ⟨hname, hnames⟩ := List.forall_mem_cons.1 h
    have hjoin : (p / name).pieces = p.pieces ++ [name] := by
      rw [← ResolutionLemmas.pieces_name hname]
      exact pieces_join p (ResolutionLemmas.isAbsolute_name hname)
    rw [show p.descend (name :: names) = (p / name).descend names from rfl, ih hnames, hjoin,
      List.append_assoc, List.singleton_append]

theorem descend_injective {names names' : List String} (h : ∀ name ∈ names, IsPlainName name)
    (h' : ∀ name ∈ names', IsPlainName name) {p : Path}
    (heq : p.descend names = p.descend names') : names = names' := by
  have hpieces := congrArg pieces heq
  rw [pieces_descend h, pieces_descend h'] at hpieces
  exact List.append_cancel_left hpieces

/-- Each name makes a path longer. -/
theorem size_descend {names : List String} (h : ∀ name ∈ names, IsPlainName name) (p : Path) :
    p.size + names.length ≤ (p.descend names).size := by
  induction names generalizing p with
  | nil => exact Nat.le_refl _
  | cons name names ih =>
    obtain ⟨hname, hnames⟩ := List.forall_mem_cons.1 h
    have hlonger : p.size + 1 ≤ (p / name).size := by
      have hpos : name.utf8ByteSize ≠ 0 := mt String.utf8ByteSize_eq_zero_iff.1 hname.1
      rcases ResolutionLemmas.text_join hname p with htext | htext <;>
        simp only [size, htext, String.utf8ByteSize_append] <;> omega
    have hrest := ih hnames (p / name)
    rw [List.length_cons]
    exact Nat.le_trans (by omega) hrest

end Path

/-! ## 2. Walks in terms of names -/

namespace Plan

variable (plan : Plan σ)

theorem filesOfEntry_eq {below : Path → List Path} {names : Path → List (List String)}
    (h : ∀ path, below path = (names path).map path.descend) (dir : Path) (e : String × Node) :
    plan.filesOfEntry below dir e = (plan.namesOfEntry names dir e).map dir.descend := by
  obtain ⟨name, n⟩ := e
  unfold filesOfEntry namesOfEntry
  by_cases hdot : name.toList.head? = some '.'
  · simp [hdot]
  · simp only [if_neg hdot]
    cases n with
    | directory =>
      rw [h, List.map_map]
      rfl
    | file =>
      by_cases hext : (dir / name).extension? = some plan.schemaExt <;> simp only [hext] <;> rfl
    | link => rfl

/-- A walk by paths is one by names. -/
theorem filesWithin_eq (fs : FileSystem) (depth : Nat) (dir : Path) :
    plan.filesWithin fs depth dir = (plan.namesWithin fs depth dir).map dir.descend := by
  induction depth generalizing dir with
  | zero => rfl
  | succ depth ih =>
    rw [filesWithin, namesWithin, List.map_flatMap]
    exact List.flatMap_congr fun e _ => plan.filesOfEntry_eq ih dir e

theorem mem_namesOfEntry_iff {below : Path → List (List String)} {dir : Path} {name : String}
    {n : Node} {names : List String} :
    names ∈ plan.namesOfEntry below dir (name, n) ↔ name.toList.head? ≠ some '.' ∧
      ((∃ access entries rest, n = .directory access entries ∧ rest ∈ below (dir / name) ∧
          names = name :: rest) ∨
        ∃ access contents, n = .file access contents ∧
          (dir / name).extension? = some plan.schemaExt ∧ names = [name]) := by
  unfold namesOfEntry
  by_cases hdot : name.toList.head? = some '.'
  · simp [hdot]
  · cases n with
    | directory => simp [hdot, eq_comm]
    | file => by_cases hext : (dir / name).extension? = some plan.schemaExt <;> simp [hdot, hext]
    | link => simp [hdot]

theorem sorted_namesOfEntry {below : Path → List (List String)}
    (h : ∀ path, (below path).Pairwise (· < ·)) (dir : Path) (e : String × Node) :
    (plan.namesOfEntry below dir e).Pairwise (· < ·) := by
  unfold namesOfEntry
  split
  · exact .nil
  · split
    · exact List.pairwise_map.2 ((h _).imp List.Lex.cons)
    · split
      · exact List.pairwise_singleton _ _
      · exact .nil
    · exact .nil

/-- A walk goes through the names in their lexicographic order, and to none twice. -/
theorem sorted_namesWithin {fs : FileSystem} (h : fs.IsTidy) (depth : Nat) (dir : Path) :
    (plan.namesWithin fs depth dir).Pairwise (· < ·) := by
  induction depth generalizing dir with
  | zero => exact .nil
  | succ depth ih =>
    obtain ⟨hsorted, hnodup⟩ := names_list h dir
    have hlt : (fs.list dir).Pairwise fun e e' => e.1 < e'.1 := by
      refine List.pairwise_map.1 ((hsorted.and hnodup).imp fun hle => ?_)
      exact String.not_le.1 fun hge => hle.2 (String.le_antisymm hle.1 hge)
    refine List.pairwise_flatMap.2 ⟨fun e _ => plan.sorted_namesOfEntry ih dir e, ?_⟩
    -- Names below different entries differ in front.
    have hhead {e : String × Node} {names : List String}
        (hnames : names ∈ plan.namesOfEntry (plan.namesWithin fs depth) dir e) :
        ∃ rest, names = e.1 :: rest := by
      rcases (plan.mem_namesOfEntry_iff.1 hnames).2 with
        ⟨_, _, rest, -, -, rfl⟩ | ⟨_, _, -, -, rfl⟩
      · exact ⟨rest, rfl⟩
      · exact ⟨[], rfl⟩
    refine hlt.imp fun hlt names hnames names' hnames' => ?_
    obtain ⟨rest, rfl⟩ := hhead hnames
    obtain ⟨rest', rfl⟩ := hhead hnames'
    exact List.Lex.rel hlt

end Plan

/-! ## 3. What a walk finds -/

namespace FileSystem

theorem node?_append_cons (fs : FileSystem) (d : Location) (name : String) (rest : List String) :
    fs.node? (d ++ name :: rest) = (fs.node? (d ++ [name])).bind (Node.at? rest) := by
  rw [List.append_cons, node?, FileTreeLemmas.at?_append]
  rfl

theorem IsTidy.mem_list_iff {fs : FileSystem} (h : fs.IsTidy) {dir : Path} {d : Location}
    (hd : fs.Reaches .reach dir dir.steps d) {name : String} {n : Node} :
    (name, n) ∈ fs.list dir ↔ fs.CanList dir ∧ fs.node? (d ++ [name]) = some n := by
  have hunique {d' : Location} (hd' : fs.Reaches .reach dir dir.steps d') : d = d' :=
    hd.unique (Grows.refl fs).sameLinks (by simp) (by simp) hd'
  constructor
  · intro hmem
    obtain ⟨d', hd', -, hnode⟩ := h.entry hmem
    obtain ⟨l, access, entries, hl, hlisted, haccess, -⟩ := FileSystem.mem_list_iff.1 hmem
    obtain rfl := hunique hd'
    exact ⟨⟨l, access, entries, hl, hlisted, haccess⟩, hnode⟩
  · rintro ⟨⟨d', access, entries, hd', hlisted, haccess⟩, hnode⟩
    obtain rfl := hunique hd'
    refine FileSystem.mem_list_iff.2 ⟨d, access, entries, hd, hlisted, haccess, ?_⟩
    rw [node?, FileTreeLemmas.at?_append, ← node?, hlisted] at hnode
    obtain ⟨front, back, rfl, -⟩ := List.lookup_eq_some_iff.1
      ((FileTreeLemmas.at?_singleton _ _).symm.trans hnode)
    exact List.mem_append_right _ List.mem_cons_self

theorem IsTidy.plain_below {fs : FileSystem} (h : fs.IsTidy) {d : Location} {names : List String}
    {n : Node} (hnode : fs.node? (d ++ names) = some n) : ∀ name ∈ names, IsPlainName name := by
  induction names generalizing d with
  | nil => exact nofun
  | cons name names ih =>
    obtain ⟨access, others, hshape⟩ :=
      exists_directory_above (shape?_of_node? hnode) (List.cons_ne_nil name names)
    have hmem : name ∈ others := by
      rw [node?_append_cons, Option.bind_eq_some_iff] at hnode
      obtain ⟨m, hm, -⟩ := hnode
      rw [← shape?_isSome_iff hshape name, shape?_of_node? hm]
      rfl
    rw [List.append_cons] at hnode
    exact List.forall_mem_cons.2 ⟨h.plain d access others hshape name hmem, ih hnode⟩

end FileSystem

namespace Plan

variable {plan : Plan σ} {fs : FileSystem} {dir : Path} {names : List String}

/-- The first of the names is an entry of the directory, and the others are looked for behind it. -/
theorem isSchemaFileBelow_cons_iff (h : fs.IsTidy) {name : String} {rest : List String} :
    plan.IsSchemaFileBelow fs dir (name :: rest) ↔
      ∃ n, (name, n) ∈ fs.list dir ∧ name.toList.head? ≠ some '.' ∧
        ((∃ access entries, n = .directory access entries ∧
            plan.IsSchemaFileBelow fs (dir / name) rest) ∨
          ∃ access contents, n = .file access contents ∧
            (dir / name).extension? = some plan.schemaExt ∧ rest = []) := by
  have hdirectory {d : Location} {access : Access} {entries : List (String × Node)}
      (hnode : fs.node? (d ++ [name]) = some (.directory access entries)) :
      ¬ fs.HasLink (d ++ [name]) := by
    rintro ⟨target, hlink⟩
    rw [FileSystem.shape?_of_node? hnode] at hlink
    cases hlink
  constructor
  · rintro ⟨-, ⟨d, readable, contents, hd, hnode⟩, hshown, hext, hlisted⟩
    have hname : IsPlainName name := h.plain_below hnode name List.mem_cons_self
    obtain ⟨n, hn, hbelow⟩ : ∃ n, fs.node? (d ++ [name]) = some n ∧
        Node.at? rest n = some (.file readable contents) := by
      rwa [FileSystem.node?_append_cons, Option.bind_eq_some_iff] at hnode
    refine ⟨n, (h.mem_list_iff hd).2 ⟨hlisted [] _ rfl (List.cons_ne_nil _ _), hn⟩,
      hshown name List.mem_cons_self, ?_⟩
    cases rest with
    | nil => exact .inr ⟨readable, contents, Option.some.inj hbelow, hext, rfl⟩
    | cons next rest =>
      obtain ⟨access, entries, _, rfl, -, -⟩ := FileTreeLemmas.exists_directory_of_at?_cons hbelow
      obtain ⟨l, -, -, hl, -⟩ := hlisted [name] _ rfl (List.cons_ne_nil _ _)
      obtain rfl := hd.child hname (hdirectory hn) hl
      refine .inl ⟨access, entries, rfl, List.cons_ne_nil _ _,
        ⟨d ++ [name], readable, contents, hl, ?_⟩,
        fun other hother => hshown other (List.mem_cons_of_mem _ hother), hext,
        fun front back hfront hback => hlisted (name :: front) back (congrArg _ hfront) hback⟩
      rwa [← List.append_cons]
  · rintro ⟨n, hmem, hshown, hcases⟩
    obtain ⟨d, hd, hname, hnode⟩ := h.entry hmem
    have hdir : fs.CanList dir := ((h.mem_list_iff hd).1 hmem).1
    rcases hcases with ⟨access, entries, rfl, hbelow⟩ | ⟨access, contents, rfl, hext, rfl⟩
    · obtain ⟨d', readable, contents, hd', hfile⟩ := hbelow.isFile
      obtain rfl := hd.child hname (hdirectory hnode) hd'
      rw [← List.append_cons] at hfile
      refine ⟨List.cons_ne_nil _ _, ⟨d, readable, contents, hd, hfile⟩,
        List.forall_mem_cons.2 ⟨hshown, hbelow.shown⟩, hbelow.extension, ?_⟩
      intro front back hfront hback
      cases front with
      | nil => exact hdir
      | cons first front =>
        obtain ⟨rfl, hrest⟩ := List.cons_eq_cons.1 hfront
        exact hbelow.listed front back hrest hback
    · refine ⟨List.cons_ne_nil _ _, ⟨d, access, contents, hd, hnode⟩,
        List.forall_mem_singleton.2 hshown, hext, fun front back hfront hback => ?_⟩
      cases front with
      | nil => exact hdir
      | cons first front =>
        obtain ⟨-, hnil⟩ := List.cons_eq_cons.1 hfront
        exact absurd (List.append_eq_nil_iff.1 hnil.symm).2 hback

theorem mem_namesWithin_iff (h : fs.IsTidy) {depth : Nat} :
    names ∈ plan.namesWithin fs depth dir ↔
      plan.IsSchemaFileBelow fs dir names ∧ names.length ≤ depth := by
  induction depth generalizing dir names with
  | zero =>
    refine iff_of_false nofun fun hbelow => hbelow.1.below ?_
    exact List.length_eq_zero_iff.1 (Nat.le_zero.1 hbelow.2)
  | succ depth ih =>
    rw [namesWithin, List.mem_flatMap]
    constructor
    · rintro ⟨⟨name, n⟩, hentry, hmem⟩
      obtain ⟨hshown, ⟨access, entries, rest, rfl, hrest, rfl⟩ |
          ⟨access, contents, rfl, hext, rfl⟩⟩ :=
        plan.mem_namesOfEntry_iff.1 hmem
      · obtain ⟨hbelow, hlength⟩ := ih.1 hrest
        exact ⟨(isSchemaFileBelow_cons_iff h).2
          ⟨_, hentry, hshown, .inl ⟨access, entries, rfl, hbelow⟩⟩, Nat.succ_le_succ hlength⟩
      · exact ⟨(isSchemaFileBelow_cons_iff h).2
          ⟨_, hentry, hshown, .inr ⟨access, contents, rfl, hext, rfl⟩⟩,
          Nat.succ_le_succ (Nat.zero_le _)⟩
    · rintro ⟨hbelow, hlength⟩
      obtain ⟨name, rest, rfl⟩ := List.exists_cons_of_ne_nil hbelow.below
      obtain ⟨n, hentry, hshown, hcases⟩ := (isSchemaFileBelow_cons_iff h).1 hbelow
      refine ⟨(name, n), hentry, plan.mem_namesOfEntry_iff.2 ⟨hshown, ?_⟩⟩
      rcases hcases with ⟨access, entries, rfl, hrest⟩ | ⟨access, contents, rfl, hext, rfl⟩
      · exact .inl ⟨access, entries, rest, rfl, ih.2 ⟨hrest, Nat.le_of_succ_le_succ hlength⟩, rfl⟩
      · exact .inr ⟨access, contents, rfl, hext, rfl⟩

theorem IsSchemaFileBelow.plain (h : fs.IsTidy) (hbelow : plan.IsSchemaFileBelow fs dir names) :
    ∀ name ∈ names, IsPlainName name := by
  obtain ⟨d, access, contents, -, hnode⟩ := hbelow.isFile
  exact h.plain_below hnode

/-- No schema file is too deep for a walk. -/
theorem IsSchemaFileBelow.length_le (h : fs.IsTidy) (hbelow : plan.IsSchemaFileBelow fs dir names) :
    names.length ≤ FileSystem.maxPathSize := by
  obtain ⟨front, last, rfl⟩ := (List.eq_nil_or_concat' names).resolve_left hbelow.below
  have hfront : ∀ name ∈ front, IsPlainName name :=
    fun name hname => hbelow.plain h name (List.mem_append_left _ hname)
  obtain ⟨l, -, -, hl, -⟩ := hbelow.listed front [last] rfl (List.cons_ne_nil _ _)
  have hshort : (dir.descend front).size < FileSystem.maxPathSize :=
    (FileSystem.reaches_iff.1 hl).1.short (by simp)
  have hsize := Path.size_descend hfront dir
  rw [List.length_append, List.length_singleton]
  omega

theorem mem_namesWithin_max_iff (h : fs.IsTidy) :
    names ∈ plan.namesWithin fs FileSystem.maxPathSize dir ↔ plan.IsSchemaFileBelow fs dir names := by
  rw [mem_namesWithin_iff h]
  exact and_iff_left_of_imp fun hbelow => hbelow.length_le h

end Plan

/-! ## 4. Runs -/

namespace DirectoryWalksLemmas

open Run EventOrderLemmas

theorem tried_singleton (plan : Plan σ) (root : Path) (s : Session σ) :
    s.tried plan [root] = seenAtRoot plan (fun path _ => [path]) root s := by
  rw [Session.tried, seen, along]
  rcases (Run.root plan root).run s with ⟨(_ | _), _⟩ <;> exact List.append_nil _

/-- What a walk takes up and what it misses are schema files at its end, in order, and there are
those that were schema files at its start among them. -/
theorem exists_visits {plan : Plan σ} (hops : ∀ g f e, (plan.target.handle g f e).Operates)
    {s now : Session σ} {result : Except RunError Unit} (htidy : s.workspace.files.IsTidy)
    {dir : Path} (hdir : s.workspace.files.isDirectory dir = true)
    (hrun : (Run.root plan dir).run s = (result, now)) :
    ∃ visits missed : List (List String), s.tried plan [dir] = visits.map dir.descend ∧
      (result = .ok () → missed = []) ∧ (visits ++ missed).Pairwise (· < ·) ∧
      (∀ names ∈ visits, plan.IsSchemaFileBelow now.workspace.files dir names) ∧
      ∀ names, plan.IsSchemaFileBelow s.workspace.files dir names → names ∈ visits ++ missed := by
  obtain ⟨-, hnow⟩ := grown_of_retraces hops (RootFilesLemmas.retraces_root plan dir) htidy hrun
  rw [tried_singleton, seenAtRoot, if_pos hdir]
  rw [Run.root, run_bind, run_get] at hrun
  simp only [hdir, if_true] at hrun
  obtain ⟨missed, hnone, hleast, hmost⟩ := (between_directory hops FileSystem.maxPathSize
    dir).outcome hops htidy htidy hnow hrun (.refl _) (.refl _)
  rw [Plan.filesWithin_eq] at hleast hmost
  obtain ⟨all, hall, heq⟩ := List.sublist_map_iff.1 hmost
  obtain ⟨visits, later, rfl, hvisits, hlater⟩ := List.append_eq_map_iff.1 heq
  have hbelow (names : List String) (hmem : names ∈ visits ++ later) :
      plan.IsSchemaFileBelow now.workspace.files dir names :=
    (Plan.mem_namesWithin_max_iff hnow).1 (hall.subset hmem)
  refine ⟨visits, later, hvisits.symm, fun hok => ?_, (plan.sorted_namesWithin hnow _ _).sublist hall,
    fun names hmem => hbelow names (List.mem_append_left _ hmem), fun names hnames => ?_⟩
  · exact List.map_eq_nil_iff.1 (hlater.trans (hnone hok))
  · -- The path is taken up or missed, and the names can be told from it.
    have hmem : dir.descend names ∈ (visits ++ later).map dir.descend :=
      heq ▸ hleast.subset (List.mem_map_of_mem ((Plan.mem_namesWithin_max_iff htidy).2 hnames))
    obtain ⟨other, hother, hsame⟩ := List.mem_map.1 hmem
    exact Path.descend_injective ((hbelow other hother).plain hnow) (hnames.plain htidy) hsame ▸
      hother

end DirectoryWalksLemmas

open DirectoryWalksLemmas in
/-- A run over a directory takes up schema files below it one after the other, each once and in the
lexicographic order of their names. All that it takes up are schema files below the directory at
the end. Those that were there at the start are taken up, unless the run has failed before their
turn. If no other schema files came below the directory while it was walked, a run that succeeds
takes up just these. -/
theorem Run.walk_visits {plan : Plan σ} (hops : ∀ g f e, (plan.target.handle g f e).Operates)
    {s now : Session σ} {result : Except RunError Unit} (htidy : s.workspace.files.IsTidy)
    {dir : Path} (hdir : s.workspace.files.isDirectory dir = true)
    (hrun : (Run.root plan dir).run s = (result, now)) :
    ∃ visits : List (List String),
      s.tried plan [dir] = visits.map dir.descend ∧
      ((visits.map dir.descend).forM (Run.rootFile plan)).run s = (result, now) ∧
      visits.Pairwise (· < ·) ∧
      (∀ names ∈ visits, plan.IsSchemaFileBelow now.workspace.files dir names) ∧
      (∀ names, plan.IsSchemaFileBelow s.workspace.files dir names →
        names ∈ visits ∨ result ≠ .ok () ∧ ∀ visit ∈ visits, visit < names) ∧
      (result = .ok () →
        (∀ names, plan.IsSchemaFileBelow now.workspace.files dir names →
          plan.IsSchemaFileBelow s.workspace.files dir names) →
        ∀ names, names ∈ visits ↔ plan.IsSchemaFileBelow s.workspace.files dir names) := by
  obtain ⟨visits, missed, htried, hnone, hsorted, hbelow, hall⟩ := exists_visits hops htidy hdir hrun
  obtain ⟨hvisits, -, hbehind⟩ := List.pairwise_append.1 hsorted
  refine ⟨visits, htried, ?_, hvisits, hbelow, fun names hnames => ?_, fun hok hsame names =>
    ⟨fun hmem => hsame names (hbelow names hmem), fun hnames => ?_⟩⟩
  · rw [← htried, tried_singleton, ← hrun]
    exact (RootFilesLemmas.retraces_root plan dir s).same.symm
  · rcases List.mem_append.1 (hall names hnames) with hmem | hmissed
    · exact .inl hmem
    · refine .inr ⟨fun hok => ?_, fun visit hvisit => hbehind visit hvisit names hmissed⟩
      rw [hnone hok] at hmissed
      cases hmissed
  · have hmem := hall names hnames
    rwa [hnone hok, List.append_nil] at hmem

/-! ### A directory with hidden entries and a link -/

namespace Nested

open EventOrderLemmas

/-- Two schema files of which one lies deeper, a hidden directory, one that may not be listed, a link
and another file. -/
def system : FileSystem :=
  ⟨.directory .full [("s", .directory .full [
    ("b.proto", .text ""),
    ("b", .directory .full [("y.proto", .text ""), ("n", .text "")]),
    (".h", .directory .full [("w.proto", .text "")]),
    ("u", .directory .none [("v.proto", .text "")]),
    ("l.proto", .link ⟨"b.proto"⟩)])], []⟩

/-- All files are taken up and skipped. -/
def plan : Plan Unit :=
  ⟨Java.target, ⟨[⟨[[]]⟩]⟩, "proto"⟩

/-- The session at its start. -/
def session : Session Unit :=
  ⟨⟨⟨"/s"⟩, .empty, [], []⟩, ⟨system, .new ⟨"/o"⟩ Java.extension "pbgen", ()⟩, [], .zero⟩

theorem isTidy_system : system.IsTidy :=
  FileSystem.isTidy_of_places ⟨.full, _, rfl⟩ (by decide)

theorem forM_rootFile (paths : List Path) (s : Session Unit) :
    ∃ stats, (paths.forM (Run.rootFile plan)).run s = (.ok (), { s with stats }) := by
  induction paths generalizing s with
  | nil => exact ⟨s.stats, rfl⟩
  | cons path paths ih =>
    have hskip (name : String) : plan.skip.skips name = true := rfl
    rw [forM_run_cons, rootFile_run, if_pos (hskip _)]
    exact ih _

theorem root_run :
    ∃ now, (Run.root plan ⟨"/s"⟩).run session = (.ok (), now) ∧
      now.workspace.files = session.workspace.files := by
  obtain ⟨stats, hrun⟩ := forM_rootFile _ session
  exact ⟨_, (RootFilesLemmas.retraces_root plan ⟨"/s"⟩ session).same.trans hrun, rfl⟩

theorem deeper_below : plan.IsSchemaFileBelow system ⟨"/s"⟩ ["b", "y.proto"] where
  below := by decide
  isFile := ⟨["s"], .full, .empty, ⟨.found ["s"] _, by rfl, rfl⟩, rfl⟩
  shown := by decide
  extension := by decide
  listed := by
    intro front back hfront hback
    match front with
    | [] => exact ⟨["s"], .full, _, ⟨.found ["s"] _, by rfl, rfl⟩, rfl, by decide⟩
    | [name] =>
      obtain rfl : "b" = name := (List.cons_eq_cons.1 hfront).1
      exact ⟨["s", "b"], .full, _, ⟨.found ["s", "b"] _, by rfl, rfl⟩, rfl, by decide⟩
    | _ :: _ :: front =>
      have hnil : [] = front ++ back := by simp_all
      exact absurd (List.append_eq_nil_iff.1 hnil.symm).2 hback

end Nested

open Nested in
/-- The deeper file is taken up once. -/
theorem Run.walk_visits_nested :
    ∃ now, (∀ g f e, (plan.target.handle g f e).Operates) ∧ system.IsTidy ∧
      system.isDirectory ⟨"/s"⟩ = true ∧ (Run.root plan ⟨"/s"⟩).run session = (.ok (), now) ∧
      ∃ visits : List (List String), ["b", "y.proto"] ∈ visits ∧
        session.tried plan [⟨"/s"⟩] = visits.map (Path.descend ⟨"/s"⟩) ∧
        visits.Pairwise (· < ·) ∧
        ∀ names, names ∈ visits ↔ plan.IsSchemaFileBelow system ⟨"/s"⟩ names := by
  obtain ⟨now, hrun, hfiles⟩ := root_run
  have hdir : system.isDirectory ⟨"/s"⟩ = true := rfl
  obtain ⟨visits, htried, -, hsorted, -, -, hexact⟩ :=
    Run.walk_visits Java.works.operates isTidy_system hdir hrun
  have hvisits := hexact rfl fun names hbelow => hfiles ▸ hbelow
  exact ⟨now, Java.works.operates, isTidy_system, hdir, hrun, visits, (hvisits _).2 deeper_below,
    htried, hsorted, hvisits⟩

end SchemaGen
