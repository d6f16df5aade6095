import SchemaGen.Proofs.RootFiles
import Mathlib.Data.List.Flatten
import Mathlib.Data.List.Sort

/-!
# What roots stand for

A root that is a directory stands for the schema files below it. They are looked for when its turn
comes, so files that were written for other roots can be among them. While a run goes on,
directories only get more entries: what a root stands for lies between what it stood for at the
start of the run and what it stands for at the end. Where these two are the same, the run takes up
just these files, whatever it has done before.

Results:
1. `FileSystem.Grows.listsMore`: the entries of a directory while files are written.
2. `RootExpansionLemmas.between_directory`: what a walk takes up lies between the start and the end,
   as far as it gets.
3. `Session.tried_eq`: the root files of a run whose roots stay what they are.
-/

namespace SchemaGen

open scoped List

variable {σ : Type}

/-! ## Definitions -/

/-- The root files that an entry of the directory `dir` stands for. -/
def Plan.filesOfEntry (plan : Plan σ) (below : Path → List Path) (dir : Path)
    (e : String × Node) : List Path :=
  if e.1.toList.head? = some '.' then []
  else
    match e.2 with
    | .directory .. => below (dir / e.1)
    | .file .. => if (dir / e.1).extension? = some plan.schemaExt then [dir / e.1] else []
    | .link _ => []

/-- The schema files below a directory, down to `depth` levels. -/
def Plan.filesWithin (plan : Plan σ) (fs : FileSystem) : (depth : Nat) → Path → List Path
  | 0, _ => []
  | depth + 1, dir => (fs.list dir).flatMap (plan.filesOfEntry (plan.filesWithin fs depth) dir)

/-- The paths of the root files that a root stands for. -/
def Plan.filesOfRoot (plan : Plan σ) (fs : FileSystem) (root : Path) : List Path :=
  if fs.isDirectory root then plan.filesWithin fs FileSystem.maxPathSize root else [root]

/-- A root file, with the locations that its path leads to from the working directory and from the
schema root. -/
structure RootFile where
  path : Path
  named : Option Location
  place : Option Location
deriving DecidableEq

/-- The root file with this path. -/
def RootFile.of (fs : FileSystem) (schemaRoot path : Path) : RootFile where
  path := path
  named := (fs.canonicalize path).toOption
  place := (fs.canonicalize (schemaRoot.join path)).toOption

/-- The root files that a root stands for. -/
def Plan.rootFiles (plan : Plan σ) (fs : FileSystem) (schemaRoot root : Path) : List RootFile :=
  (plan.filesOfRoot fs root).map (RootFile.of fs schemaRoot)

/-- Two nodes are of the same kind. -/
def Node.Alike : Node → Node → Prop
  | .file .., .file .. => True
  | .directory .., .directory .. => True
  | .link _, .link _ => True
  | _, _ => False

/-- Directories have in `fs'` what they have in `fs`, of the same kinds. -/
def FileSystem.ListsMore (fs fs' : FileSystem) : Prop :=
  ∀ dir, (fs.list dir).map (·.1) <+ (fs'.list dir).map (·.1) ∧
    ∀ e ∈ fs.list dir, ∀ e' ∈ fs'.list dir, e.1 = e'.1 → e.2.Alike e'.2

/-! ## 1. Entries of directories -/

namespace RootExpansionLemmas

theorem names_list {fs : FileSystem} (h : fs.IsTidy) (dir : Path) :
    ((fs.list dir).map (·.1)).Pairwise (· ≤ ·) ∧ ((fs.list dir).map (·.1)).Nodup := by
  unfold FileSystem.list
  split
  · next access entries hfind =>
    obtain ⟨d, -, hnode⟩ := FileSystem.find_eq_ok_iff.1 hfind
    have hnodup := h.nodup d access _ (FileSystem.shape?_of_node? hnode)
    split
    · exact ⟨List.Pairwise.nil, List.nodup_nil⟩
    refine ⟨List.pairwise_map.2 ?_, ?_⟩
    · have hsorted : (entries.mergeSort fun a b => a.1 ≤ b.1).Pairwise
          fun a b => decide (a.1 ≤ b.1) = true := by
        apply List.pairwise_mergeSort
        · intro a b c hab hbc
          rw [decide_eq_true_eq] at *
          exact String.le_trans hab hbc
        · intro a b
          rw [Bool.or_eq_true, decide_eq_true_eq, decide_eq_true_eq]
          exact String.le_total a.1 b.1
      exact hsorted.imp fun hle => of_decide_eq_true hle
    · exact ((List.mergeSort_perm entries _).map _).nodup_iff.2 hnodup
  · exact ⟨List.Pairwise.nil, List.nodup_nil⟩

theorem mem_names_list {fs : FileSystem} {dir : Path} {d : Location}
    (hd : fs.Reaches .reach dir dir.steps d) {access : Access} {names : List String}
    (hshape : fs.shape? d = some (.directory access names)) (haccess : access ≠ .none)
    {name : String} (hname : name ∈ names) : name ∈ (fs.list dir).map (·.1) := by
  obtain ⟨entries, hnode, rfl⟩ := FileSystem.node?_of_shape?_directory hshape
  obtain ⟨e, he, rfl⟩ := List.mem_map.1 hname
  exact List.mem_map_of_mem (FileSystem.mem_list_iff.2 ⟨d, access, entries, hd, hnode, haccess, he⟩)

/-- Lists that are taken from the entries of directories, of which one has more than the other. -/
theorem flatMap_sublist_of_names {β : Type} {f : String × Node → List β}
    {entries more : List (String × Node)} (hnames : entries.map (·.1) <+ more.map (·.1))
    (hsame : ∀ e ∈ entries, ∀ e' ∈ more, e.1 = e'.1 → f e = f e') :
    entries.flatMap f <+ more.flatMap f := by
  induction more generalizing entries with
  | nil =>
    have hnil : entries = [] := List.map_eq_nil_iff.1 (List.sublist_nil.1 hnames)
    rw [hnil]
  | cons m more ih =>
    rw [List.flatMap_cons]
    rcases List.sublist_cons_iff.1 hnames with hskip | ⟨names, hcons, hsub⟩
    · refine (ih hskip fun e he e' he' => ?_).trans (List.sublist_append_right _ _)
      exact hsame e he e' (List.mem_cons_of_mem _ he')
    · obtain ⟨e, rest, rfl, hname, rfl⟩ := List.map_eq_cons_iff.1 hcons
      rw [List.flatMap_cons, hsame e List.mem_cons_self m List.mem_cons_self hname]
      refine (List.Sublist.refl _).append (ih hsub fun e he e' he' => ?_)
      exact hsame e (List.mem_cons_of_mem _ he) e' (List.mem_cons_of_mem _ he')

end RootExpansionLemmas

open RootExpansionLemmas

variable {fs fs' : FileSystem}

/-- Directories list more if their entries are among the later ones and are alike. -/
theorem FileSystem.listsMore_of (htidy : fs.IsTidy) (htidy' : fs'.IsTidy)
    (hlinks : fs.SameLinks fs')
    (hkept : ∀ dir d access names, fs.Reaches .reach dir dir.steps d →
      fs.shape? d = some (.directory access names) → access ≠ .none →
        ∀ name ∈ names, name ∈ (fs'.list dir).map (·.1))
    (halike : ∀ l n n', fs.node? l = some n → fs'.node? l = some n' → n.Alike n') :
    fs.ListsMore fs' := by
  intro dir
  obtain ⟨hsorted, hnodup⟩ := names_list htidy dir
  obtain ⟨hsorted', -⟩ := names_list htidy' dir
  constructor
  · have hsubset : (fs.list dir).map (·.1) ⊆ (fs'.list dir).map (·.1) := by
      intro name hname
      obtain ⟨e, he, rfl⟩ := List.mem_map.1 hname
      obtain ⟨d, access, entries, hd, hnode, haccess, hentry⟩ := mem_list_iff.1 he
      exact hkept dir d access _ hd (shape?_of_node? hnode) haccess _ (List.mem_map_of_mem hentry)
    have hantisymm : Std.Antisymm fun a b : String => a ≤ b :=
      ⟨fun _ _ hab hba => String.le_antisymm hab hba⟩
    exact List.sublist_of_subperm_of_pairwise (List.subperm_of_subset hnodup hsubset) hsorted
      hsorted'
  · rintro ⟨name, n⟩ he ⟨name', n'⟩ he' rfl
    obtain ⟨d, hd, -, hnode⟩ := htidy.entry he
    obtain ⟨d', hd', -, hnode'⟩ := htidy'.entry he'
    obtain rfl := hd.unique hlinks (by simp) (by simp) hd'
    exact halike _ n n' hnode hnode'

/-- While files are written, a directory keeps its entries and their kinds. -/
theorem FileSystem.Grows.listsMore (h : fs.Grows fs') (htidy : fs.IsTidy) (htidy' : fs'.IsTidy) :
    fs.ListsMore fs' := by
  refine listsMore_of htidy htidy' h.sameLinks ?_ ?_
  · intro dir d access names hd hshape haccess name hname
    obtain ⟨more, hmore⟩ := h.directory hshape
    exact mem_names_list (hd.grows h) hmore haccess (List.mem_append_left _ hname)
  · intro l n n' hnode hnode'
    have hgrows := h.shapes l
    rw [shape?_of_node? hnode, shape?_of_node? hnode'] at hgrows
    cases n <;> cases n' <;> trivial

/-! ## 2. Walks -/

/-- What an entry stands for depends on its name and its kind. -/
theorem Plan.filesOfEntry_congr (plan : Plan σ) (below : Path → List Path) (dir : Path)
    {e e' : String × Node} (hname : e.1 = e'.1) (halike : e.2.Alike e'.2) :
    plan.filesOfEntry below dir e = plan.filesOfEntry below dir e' := by
  obtain ⟨name, n⟩ := e
  obtain ⟨_, n'⟩ := e'
  cases hname
  unfold filesOfEntry
  cases n <;> cases n' <;> first | rfl | cases halike

theorem Plan.filesOfEntry_mono (plan : Plan σ) {below below' : Path → List Path}
    (h : ∀ path, below path <+ below' path) (dir : Path) (e : String × Node) :
    plan.filesOfEntry below dir e <+ plan.filesOfEntry below' dir e := by
  unfold filesOfEntry
  split
  · exact .refl _
  · split
    · exact h _
    · exact .refl _
    · exact .refl _

namespace RootExpansionLemmas

open Run EventOrderLemmas RootFilesLemmas

variable {plan : Plan σ}

theorem entries_more {fs fs' : FileSystem} (h : fs.ListsMore fs') (below : Path → List Path)
    (dir : Path) :
    (fs.list dir).flatMap (plan.filesOfEntry below dir) <+
      (fs'.list dir).flatMap (plan.filesOfEntry below dir) := by
  obtain ⟨hnames, hkinds⟩ := h dir
  refine flatMap_sublist_of_names hnames fun e he e' he' hname => ?_
  exact plan.filesOfEntry_congr _ dir hname (hkinds e he e' he' hname)

/-- Where directories list more, there are more schema files below them, in the same order. -/
theorem filesWithin_more {fs fs' : FileSystem} (h : fs.ListsMore fs') (depth : Nat) (dir : Path) :
    plan.filesWithin fs depth dir <+ plan.filesWithin fs' depth dir := by
  induction depth generalizing dir with
  | zero => exact .refl _
  | succ depth ih =>
    exact (entries_more h _ dir).trans
      (.flatMap_right _ fun e _ => plan.filesOfEntry_mono ih dir e)

/-- What the part `act` of a run takes up lies between what `files` tells from the file system
before it and from the one after it, and from any earlier and later ones. As far as it has got, it
has missed some of that at the end, beginning with the root file that it would have come to. -/
structure Between (plan : Plan σ) (files : FileSystem → List Path) (act : Run σ Unit)
    (paths : Session σ → List Path) : Prop where
  retraces : Retraces plan act paths
  more : ∀ {fs fs'}, fs.ListsMore fs' → files fs <+ files fs'
  between : ∀ {s before later now fs fs'}, s.workspace.files.IsTidy → fs.IsTidy → fs'.IsTidy →
    paths s = before ++ later → (before.forM (rootFile plan)).run s = (.ok (), now) →
    fs.Grows s.workspace.files → now.workspace.files.Grows fs' →
    ∃ missed, missed.head? = later.head? ∧
      files fs <+ before ++ missed ∧ before ++ missed <+ files fs'

theorem between_same {act : Run σ Unit} {paths : List Path}
    (h : Retraces plan act fun _ => paths) : Between plan (fun _ => paths) act fun _ => paths where
  retraces := h
  more _ := .refl _
  between _ _ _ hpaths _ _ _ := ⟨_, rfl, hpaths ▸ .refl _, hpaths ▸ .refl _⟩

theorem between_entry {files : FileSystem → Path → List Path} {descend : Path → Run σ Unit}
    {below : Path → Session σ → List Path}
    (h : ∀ path, Between plan (files · path) (descend path) (below path)) (dir : Path)
    (e : String × Node) :
    Between plan (fun fs => plan.filesOfEntry (files fs) dir e) (entry plan descend dir e)
      (seenEntry plan (fun path _ => [path]) below dir e) := by
  obtain ⟨name, node⟩ := e
  unfold Plan.filesOfEntry entry seenEntry
  by_cases hdot : name.toList.head? = some '.'
  · simp only [if_pos hdot]
    exact between_same retraces_nothing
  · simp only [if_neg hdot]
    cases node with
    | directory => exact h (dir / name)
    | file =>
      by_cases hext : (dir / name).extension? = some plan.schemaExt
      · simp only [if_pos hext]
        exact between_same (retraces_rootFile (dir / name))
      · simp only [if_neg hext]
        exact between_same retraces_nothing
    | link => exact between_same retraces_nothing

theorem eq_of_heads {α : Type} {xs ys : List α}
    (h : ∀ before later rest, xs = before ++ later → ys = before ++ rest →
      rest.head? = later.head?) : xs = ys := by
  induction xs generalizing ys with
  | nil => exact (List.head?_eq_none_iff.1 (h [] [] ys rfl rfl)).symm
  | cons x xs ih =>
    obtain ⟨ys, rfl⟩ := List.head?_eq_some_iff.1 (h [] (x :: xs) ys rfl rfl)
    refine congrArg (x :: ·) (ih fun before later rest hlater hrest => ?_)
    exact h (x :: before) later rest (congrArg (x :: ·) hlater) (congrArg (x :: ·) hrest)

/-- A list that begins two lists in a row ends beyond the first of them or within it. -/
theorem beyond_or_within {α : Type} {xs ys before later : List α} (h : xs ++ ys = before ++ later) :
    (∃ more, before = xs ++ more ∧ ys = more ++ later) ∨
      ∃ left ≠ [], left.head? = later.head? ∧ xs = before ++ left := by
  rcases List.append_eq_append_iff.1 h with hbeyond | ⟨left, hleft, rfl⟩
  · exact .inl hbeyond
  · cases left with
    | nil => exact .inl ⟨[], by simpa using hleft.symm, rfl⟩
    | cons path others => exact .inr ⟨path :: others, List.cons_ne_nil _ _, rfl, hleft⟩

section Walks

variable (hops : ∀ g f e, (plan.target.handle g f e).Operates)

include hops

variable {s now : Session σ} {act : Run σ Unit} {paths : Session σ → List Path}

theorem grown_of_ok {paths : List Path} (htidy : s.workspace.files.IsTidy)
    (hrun : (paths.forM (rootFile plan)).run s = (.ok (), now)) :
    s.workspace.files.Grows now.workspace.files ∧ now.workspace.files.IsTidy := by
  have hgrown := grown_of_rootFiles hops htidy paths
  rw [hrun] at hgrown
  exact hgrown

theorem grown_of_retraces (h : Retraces plan act paths) {result : Except RunError Unit}
    (htidy : s.workspace.files.IsTidy) (hrun : act.run s = (result, now)) :
    s.workspace.files.Grows now.workspace.files ∧ now.workspace.files.IsTidy := by
  have hgrown := grown_of_rootFiles hops htidy (paths s)
  rw [← (h s).same, hrun] at hgrown
  exact hgrown

/-- If the part has not been gone through, what follows it is missed as it is at the end. -/
theorem Between.stopped {files others : FileSystem → List Path} (h : Between plan files act paths)
    (hmore : ∀ {fs fs'}, fs.ListsMore fs' → others fs <+ others fs') {before left : List Path}
    {fs fs' : FileSystem} (htidy : s.workspace.files.IsTidy) (hfs : fs.IsTidy) (hfs' : fs'.IsTidy)
    (hleft : left ≠ []) (hpaths : paths s = before ++ left)
    (hrun : (before.forM (rootFile plan)).run s = (.ok (), now))
    (hbefore : fs.Grows s.workspace.files) (hafter : now.workspace.files.Grows fs') :
    ∃ missed, missed.head? = left.head? ∧
      files fs ++ others fs <+ before ++ missed ∧ before ++ missed <+ files fs' ++ others fs' := by
  have hgrows := hbefore.trans ((grown_of_ok hops htidy hrun).1.trans hafter)
  obtain ⟨missed, hmissed, hleast, hmost⟩ := h.between htidy hfs hfs' hpaths hrun hbefore hafter
  obtain ⟨path, later, rfl⟩ := List.exists_cons_of_ne_nil hleft
  obtain ⟨later', rfl⟩ : ∃ later', missed = path :: later' := List.head?_eq_some_iff.1 hmissed
  refine ⟨(path :: later') ++ others fs', rfl, ?_, ?_⟩ <;> rw [← List.append_assoc]
  · exact hleast.append (hmore (hgrows.listsMore hfs hfs'))
  · exact hmost.append (.refl _)

theorem between_forM {α : Type} {files : α → FileSystem → List Path} {act : α → Run σ Unit}
    {paths : α → Session σ → List Path} (h : ∀ a, Between plan (files a) (act a) (paths a))
    (items : List α) :
    Between plan (fun fs => items.flatMap (files · fs)) (items.forM act)
      (along act paths items) := by
  have hmore (items : List α) {fs fs' : FileSystem} (hlists : fs.ListsMore fs') :
      items.flatMap (files · fs) <+ items.flatMap (files · fs') :=
    .flatMap_right items fun a _ => (h a).more hlists
  refine ⟨fun s =>
    ((walks_retraced seeNothing).forM (fun a s => ⟨(h a).retraces s, rfl⟩) items s).1,
    hmore items, ?_⟩
  induction items with
  | nil =>
    have hnothing : Between plan (fun _ => []) (pure ()) fun _ => [] := between_same retraces_nothing
    intro s before later now fs fs'
    exact hnothing.between
  | cons a rest ih =>
    intro s before later now fs fs' htidy hfs hfs' hpaths hrun hbefore hafter
    have hsame := ((h a).retraces s).same
    have hstops {left : List Path} (hleft : left ≠ []) (hfirst : paths a s = before ++ left) :=
      (h a).stopped hops (hmore rest) htidy hfs hfs' hleft hfirst hrun hbefore hafter
    rw [along] at hpaths
    rcases hfirst : (act a).run s with ⟨(e | _), middle⟩
    · rw [hfirst, List.append_nil] at hpaths
      refine hstops (fun hnil => ?_) hpaths
      rw [hpaths, hnil, List.append_nil, hrun, hfirst] at hsame
      cases hsame
    · rw [hfirst] at hpaths hsame
      rcases beyond_or_within hpaths with ⟨more, rfl, hothers⟩ | ⟨left, hleft, hhead, hfirst⟩
      · obtain ⟨middle', hmiddle, hrest⟩ := forM_append_ok hrun
        obtain rfl := (Prod.mk.inj (hsame.trans hmiddle)).2
        obtain ⟨hwhile, htidy'⟩ := grown_of_ok hops htidy hmiddle
        obtain ⟨hwhile', -⟩ := grown_of_ok hops htidy' hrest
        obtain ⟨none, hnone, hleast, hmost⟩ := (h a).between htidy hfs hfs'
          (List.append_nil _).symm hmiddle hbefore (hwhile'.trans hafter)
        rw [List.head?_eq_none_iff.1 hnone, List.append_nil] at hleast hmost
        obtain ⟨missed, hmissed, hleast', hmost'⟩ :=
          ih htidy' hfs hfs' hothers hrest (hbefore.trans hwhile) hafter
        refine ⟨missed, hmissed, ?_, ?_⟩ <;> rw [List.append_assoc]
        · exact hleast.append hleast'
        · exact hmost.append hmost'
      · rw [← hhead]
        exact hstops hleft hfirst

/-- The entries are listed once, when the directory is entered; each of them is walked later. -/
theorem between_directory (depth : Nat) (dir : Path) :
    Between plan (fun fs => plan.filesWithin fs depth dir) (directory plan depth dir)
      (seenBelow plan (fun path _ => [path]) depth dir) := by
  induction depth generalizing dir with
  | zero => exact between_same retraces_nothing
  | succ depth ih =>
    refine ⟨retraces_directory (depth + 1) dir, fun hmore => filesWithin_more hmore _ dir, ?_⟩
    intro s before later now fs fs' htidy hfs hfs' hpaths hrun hbefore hafter
    have hgrows := (grown_of_ok hops htidy hrun).1.trans hafter
    obtain ⟨missed, hmissed, hleast, hmost⟩ :=
      (between_forM hops (between_entry ih dir) (s.workspace.files.list dir)).between htidy hfs hfs'
        hpaths hrun hbefore hafter
    exact ⟨missed, hmissed, (entries_more (hbefore.listsMore hfs htidy) _ dir).trans hleast,
      hmost.trans (entries_more (hgrows.listsMore htidy hfs') _ dir)⟩

/-- What is taken up when the part of the run has ended. If it has failed, some of it is missed. -/
theorem Between.outcome {files : FileSystem → List Path} (h : Between plan files act paths)
    {result : Except RunError Unit} {fs fs' : FileSystem} (htidy : s.workspace.files.IsTidy)
    (hfs : fs.IsTidy) (hfs' : fs'.IsTidy) (hrun : act.run s = (result, now))
    (hbefore : fs.Grows s.workspace.files) (hafter : now.workspace.files.Grows fs') :
    ∃ missed, (result = .ok () → missed = []) ∧
      files fs <+ paths s ++ missed ∧ paths s ++ missed <+ files fs' := by
  rcases result with e | _
  · obtain ⟨before, path, middle, hpaths, hmiddle, hlast⟩ := (h.retraces s).last hrun
    have hwhile := grown_of_rootFiles hops (grown_of_ok hops htidy hmiddle).2 [path]
    rw [forM_run_singleton, hlast] at hwhile
    obtain ⟨missed, hmissed, hleast, hmost⟩ :=
      h.between htidy hfs hfs' hpaths hmiddle hbefore (hwhile.1.trans hafter)
    obtain ⟨others, rfl⟩ := List.head?_eq_some_iff.1 hmissed
    refine ⟨others, nofun, ?_, ?_⟩ <;> rw [hpaths, List.append_assoc]
    · exact hleast
    · exact hmost
  · rw [(h.retraces s).same] at hrun
    obtain ⟨missed, hmissed, hbetween⟩ :=
      h.between htidy hfs hfs' (List.append_nil _).symm hrun hbefore hafter
    exact ⟨missed, fun _ => List.head?_eq_none_iff.1 hmissed, hbetween⟩

/-- If `files` tells the same at the start and at the end, just this is taken up, when either the
part of the run or these root files can be gone through. -/
theorem Between.exact {files : FileSystem → List Path} (h : Between plan files act paths)
    {fs fs' : FileSystem} (htidy : s.workspace.files.IsTidy) (hfs : fs.IsTidy) (hfs' : fs'.IsTidy)
    (hrun : act.run s = (.ok (), now) ∨ ((files fs).forM (rootFile plan)).run s = (.ok (), now))
    (hbefore : fs.Grows s.workspace.files) (hafter : now.workspace.files.Grows fs')
    (hsame : files fs' = files fs) : paths s = files fs := by
  rcases hrun with hrun | hrun
  · obtain ⟨missed, hnone, hleast, hmost⟩ := h.outcome hops htidy hfs hfs' hrun hbefore hafter
    rw [hnone rfl, List.append_nil] at hleast hmost
    exact (hsame ▸ hmost).antisymm hleast
  · refine eq_of_heads fun before later rest hpaths hfiles => ?_
    rw [hfiles] at hrun
    obtain ⟨middle, hmiddle, hrest⟩ := forM_append_ok hrun
    have hgrows := (grown_of_ok hops (grown_of_ok hops htidy hmiddle).2 hrest).1
    obtain ⟨missed, hmissed, hleast, hmost⟩ :=
      h.between htidy hfs hfs' hpaths hmiddle hbefore (hgrows.trans hafter)
    have hall : before ++ missed = files fs := (hsame ▸ hmost).antisymm hleast
    rw [← hmissed, List.append_cancel_left (hall.trans hfiles)]

end Walks

end RootExpansionLemmas

/-! ## 3. Roots that stay what they are -/

theorem FileSystem.Grows.isDirectory (h : fs.Grows fs') {p : Path} (hp : fs.isDirectory p = true) :
    fs'.isDirectory p = true := by
  obtain ⟨l, hl, hdir⟩ := isDirectory_iff.1 hp
  exact isDirectory_iff.2 ⟨l, hl.grows h, hdir.grows h⟩

theorem FileSystem.Grows.canonicalize (h : fs.Grows fs') {p : Path} {l : Location}
    (hp : fs.canonicalize p = .ok l) : fs'.canonicalize p = .ok l := by
  obtain ⟨hl, hsome⟩ := canonicalize_eq_ok_iff.1 hp
  exact canonicalize_eq_ok_iff.2 ⟨hl.grows h, h.isSome hsome⟩

/-- What lies below a directory has a longer path. -/
theorem Plan.pieces_of_mem_filesWithin {plan : Plan σ} (h : fs.IsTidy) {depth : Nat}
    {dir path : Path} (hpath : path ∈ plan.filesWithin fs depth dir) :
    dir.pieces.length < path.pieces.length := by
  induction depth generalizing dir with
  | zero => cases hpath
  | succ depth ih =>
    obtain ⟨⟨name, n⟩, he, hmem⟩ := List.mem_flatMap.1 hpath
    obtain ⟨-, -, hname, -⟩ := h.entry he
    have hjoin : (dir / name).pieces = dir.pieces ++ [name] := by
      rw [← ResolutionLemmas.pieces_name hname]
      exact Path.pieces_join dir (ResolutionLemmas.isAbsolute_name hname)
    have hlonger : dir.pieces.length < (dir / name).pieces.length := by
      rw [hjoin, List.length_append]
      exact Nat.lt_succ_self _
    unfold filesOfEntry at hmem
    split at hmem
    · cases hmem
    · split at hmem
      · exact Nat.lt_trans hlonger (ih hmem)
      · split at hmem
        · obtain rfl := List.mem_singleton.1 hmem
          exact hlonger
        · cases hmem
      · cases hmem

namespace RootExpansionLemmas

open Run EventOrderLemmas RootFilesLemmas

variable {plan : Plan σ}

/-- A root that stands for the same files later on is a directory later on only if it was one. -/
theorem isDirectory_of_filesOfRoot {fs fs' : FileSystem} (htidy' : fs'.IsTidy) (h : fs.Grows fs')
    {root : Path} (hsame : plan.filesOfRoot fs' root = plan.filesOfRoot fs root) :
    fs'.isDirectory root = fs.isDirectory root := by
  cases hdir : fs.isDirectory root with
  | true => exact h.isDirectory hdir
  | false =>
    refine Bool.eq_false_iff.2 fun hdir' => ?_
    rw [Plan.filesOfRoot, Plan.filesOfRoot, if_pos hdir', if_neg (by simp [hdir])] at hsame
    have hself : root ∈ plan.filesWithin fs' FileSystem.maxPathSize root :=
      hsame ▸ List.mem_singleton_self root
    exact Nat.lt_irrefl _ (Plan.pieces_of_mem_filesWithin htidy' hself)

/-- While a root stands for the same files at the start and at the end, these are taken up. -/
theorem seenAtRoot_eq (hops : ∀ g f e, (plan.target.handle g f e).Operates) {fs fs' : FileSystem}
    (hfs : fs.IsTidy) (hfs' : fs'.IsTidy) {root : Path}
    (hsame : plan.filesOfRoot fs' root = plan.filesOfRoot fs root) {s now : Session σ}
    (htidy : s.workspace.files.IsTidy) (hgrows : s.workspace.files.Grows now.workspace.files)
    (hrun : (Run.root plan root).run s = (.ok (), now) ∨
      ((plan.filesOfRoot fs root).forM (rootFile plan)).run s = (.ok (), now))
    (hbefore : fs.Grows s.workspace.files) (hafter : now.workspace.files.Grows fs') :
    seenAtRoot plan (fun path _ => [path]) root s = plan.filesOfRoot fs root := by
  have hend := isDirectory_of_filesOfRoot hfs' (hbefore.trans (hgrows.trans hafter)) hsame
  cases hdir : fs.isDirectory root with
  | true =>
    have hnow := hbefore.isDirectory hdir
    rw [hdir] at hend
    rw [Plan.filesOfRoot, Plan.filesOfRoot, if_pos hend, if_pos hdir] at hsame
    rw [Plan.filesOfRoot, if_pos hdir] at hrun ⊢
    rw [Run.root, run_bind, run_get] at hrun
    simp only [hnow, if_true] at hrun
    rw [seenAtRoot, if_pos hnow]
    exact (between_directory hops FileSystem.maxPathSize root).exact hops htidy hfs hfs' hrun hbefore
      hafter hsame
  | false =>
    rw [hdir] at hend
    have hnow : ¬ s.workspace.files.isDirectory root = true := fun hnow => by
      rw [(hgrows.trans hafter).isDirectory hnow] at hend
      cases hend
    rw [seenAtRoot, if_neg hnow, Plan.filesOfRoot, if_neg (by simp [hdir])]

/-- Whether roots are gone through or what they stand for, there is a state behind the first. -/
theorem exists_behind_first (hops : ∀ g f e, (plan.target.handle g f e).Operates)
    {files : Path → List Path} {root : Path} {rest : List Path} {s after : Session σ}
    (htidy : s.workspace.files.IsTidy)
    (hrun : ((root :: rest).forM (Run.root plan)).run s = (.ok (), after) ∨
      (((root :: rest).flatMap files).forM (rootFile plan)).run s = (.ok (), after)) :
    ∃ now, ((Run.root plan root).run s = (.ok (), now) ∨
        ((files root).forM (rootFile plan)).run s = (.ok (), now)) ∧
      ((rest.forM (Run.root plan)).run now = (.ok (), after) ∨
        ((rest.flatMap files).forM (rootFile plan)).run now = (.ok (), after)) ∧
      s.workspace.files.Grows now.workspace.files ∧ now.workspace.files.IsTidy ∧
      now.workspace.files.Grows after.workspace.files := by
  rcases hrun with hrun | hrun
  · obtain ⟨_, now, hfirst, hrest⟩ := run_bind_eq_ok hrun
    obtain ⟨hgrows, hnow⟩ := grown_of_retraces hops (retraces_root plan root) htidy hfirst
    exact ⟨now, .inl hfirst, .inl hrest, hgrows, hnow,
      (grown_of_retraces hops (Session.retraces plan rest) hnow hrest).1⟩
  · obtain ⟨now, hfirst, hrest⟩ := forM_append_ok hrun
    obtain ⟨hgrows, hnow⟩ := grown_of_ok hops htidy hfirst
    exact ⟨now, .inr hfirst, .inr hrest, hgrows, hnow, (grown_of_ok hops hnow hrest).1⟩

end RootExpansionLemmas

/-- If all roots stand for the same files at the start of a run and at its end, the run takes up
just these files, when either the roots or these root files can be gone through. -/
theorem Session.tried_eq {plan : Plan σ} (hops : ∀ g f e, (plan.target.handle g f e).Operates)
    (hfs : fs.IsTidy) (hfs' : fs'.IsTidy) {roots : List Path}
    (hsame : ∀ root ∈ roots, plan.filesOfRoot fs' root = plan.filesOfRoot fs root)
    {s after : Session σ} (htidy : s.workspace.files.IsTidy)
    (hrun : (roots.forM (Run.root plan)).run s = (.ok (), after) ∨
      ((roots.flatMap (plan.filesOfRoot fs)).forM (Run.rootFile plan)).run s = (.ok (), after))
    (hbefore : fs.Grows s.workspace.files) (hafter : after.workspace.files.Grows fs') :
    s.tried plan roots = roots.flatMap (plan.filesOfRoot fs) := by
  induction roots generalizing s with
  | nil => rfl
  | cons root rest ih =>
    obtain ⟨now, hfirst, hrest, hgrows, hnow, hgrows'⟩ := exists_behind_first hops htidy hrun
    have hseen := seenAtRoot_eq hops hfs hfs' (hsame root List.mem_cons_self) htidy hgrows hfirst
      hbefore (hgrows'.trans hafter)
    have hroot := (RootFilesLemmas.retraces_root plan root s).same
    rw [hseen] at hroot
    rw [hroot, or_self] at hfirst
    rw [hfirst] at hroot
    have hothers := ih (fun root hroot => hsame root (List.mem_cons_of_mem _ hroot)) hnow hrest
      (hbefore.trans hgrows)
    rw [Session.tried, Run.seen, Run.along, hroot, hseen]
    exact congrArg (plan.filesOfRoot fs root ++ ·) hothers

end SchemaGen
