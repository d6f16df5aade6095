import SchemaGen.Proofs.RunCounts

/-!
# The names of root files

Skip patterns are matched with a name that a root file gets from its path. If the steps of the path
start with those of the schema root, the name is what stands behind them, as written. Only otherwise
the path is followed, from the working directory if it is relative, and the name is that of the
place it leads to, if the place lies below the schema root.

The file itself is loaded from the place that the path leads to from the schema root, and it is
recorded under the name of this place. So the two names are the same for paths that spell out the
place, and for absolute paths that start elsewhere. A path that starts with the schema root and goes
on with a detour, up again or through a link, has another name.

Results:
1. `joined_eq_iff`, `slashed_ofComponents`: names and the components they are made of.
2. `skipName_eq_iff`: when a root file is looked up under the name that it is recorded under.
3. `file_of_load`, `recorded_of_reached`: the file that a load gives, and its recorded name.
4. `passesOver_iff`: what a run does with a root file that can be read.
5. `Run.skips_by_place_iff`: when skipping goes by the place of a root file.
-/

namespace SchemaGen

open LocationLemmas

variable {σ : Type}

/-! ## Definitions -/

/-- The component is a piece of a path between slashes. -/
def PathComponent.IsPiece (c : PathComponent) : Prop :=
  PathComponent.ofPiece c.text = c ∧ c.text ≠ "" ∧ '/' ∉ c.text.toList

/-- The path `p` of a root file gives it the name of the place `l` below the schema root. -/
inductive Run.SpellsOut (fs : FileSystem) (root : Path) (l : Location) (p : Path) : Prop
  /-- The path is that of the place, step by step. -/
  | straight (hsame : p.components = l.path.components)
  /-- The path starts elsewhere, and so it is followed. -/
  | followed (habs : p.isAbsolute = true) (hoff : ¬ root.components <+: p.components)
  /-- Also from the working directory the path leads to the place. -/
  | fromHere {m : Location} (hrel : p.isAbsolute = false) (hm : fs.canonicalize p = .ok m)
      (hsame : m.path.components = l.path.components)
  /-- The steps of the path go from the root to the place, and from the working directory they do
  not lead below the root. -/
  | fromRoot (hrel : p.isAbsolute = false)
      (hoff : ∀ m, fs.canonicalize p = .ok m → ¬ root.components <+: m.path.components)
      (hsame : root.components ++ p.components = l.path.components)

/-- The catalog remembers its files under their paths. -/
def Catalog.IsFiled (c : Catalog) : Prop :=
  ∀ entry ∈ c.loaded, ∃ f, c.graph.file? entry.2 = some f ∧ f.path = entry.1

/-- A run counts the root file as left out and does nothing else. -/
def Session.PassesOver (plan : Plan σ) (path : Path) (s : Session σ) : Prop :=
  (Run.rootFile plan path).run s = (.ok (), { s with stats := s.stats.skip })

/-! ## 1. Components and their texts -/

namespace SkipNamesLemmas

open PathComponent (ofPiece)

theorem text_ofPiece (piece : String) : (ofPiece piece).text = piece := by
  unfold ofPiece
  split
  · next hdot => exact hdot.symm
  · split
    · next hdots => exact hdots.symm
    · rfl

theorem ofPiece_of_plain {name : String} (h : IsPlainName name) : ofPiece name = .name name := by
  rw [ofPiece, if_neg h.2.1, if_neg h.2.2.1]

theorem isPiece_of_mem_innerSteps {pieces : List String}
    (h : ∀ piece ∈ pieces, piece ≠ "" ∧ '/' ∉ piece.toList) {c : PathComponent}
    (hc : c ∈ Path.innerSteps pieces) : c.IsPiece ∧ c ≠ .here := by
  obtain ⟨hmem, hhere⟩ := List.mem_filter.1 hc
  obtain ⟨piece, hpiece, rfl⟩ := List.mem_map.1 hmem
  refine ⟨?_, by simpa using hhere⟩
  unfold PathComponent.IsPiece
  rw [text_ofPiece]
  exact ⟨rfl, h piece hpiece⟩

variable {p : Path} {cs : List PathComponent} {k : Location} {c : Catalog} {fs : FileSystem}

theorem isPiece_of_relative (hrel : p.isAbsolute = false) : ∀ c ∈ p.components, c.IsPiece := by
  have hwords : ∀ piece ∈ p.pieces, piece ≠ "" ∧ '/' ∉ piece.toList := fun _ => mem_words
  intro c hc
  by_cases hdot : p.pieces.head? = some "."
  · obtain ⟨rest, hpieces⟩ := List.head?_eq_some_iff.1 hdot
    rw [Path.components_of_dot hrel hpieces] at hc
    rw [hpieces] at hwords
    rcases List.mem_cons.1 hc with rfl | hrest
    · exact ⟨rfl, by decide, by decide⟩
    · exact (isPiece_of_mem_innerSteps (List.forall_mem_cons.1 hwords).2 hrest).1
  · rw [Path.components_of_relative hrel hdot] at hc
    exact (isPiece_of_mem_innerSteps hwords hc).1

theorem map_ofPiece_text (h : ∀ c ∈ cs, c.IsPiece) :
    (cs.map PathComponent.text).map ofPiece = cs := by
  rw [List.map_map]
  exact (List.map_congr_left fun c hc => (h c hc).1).trans (List.map_id cs)

theorem words_of_isPiece (h : ∀ c ∈ cs, c.IsPiece) :
    ∀ text ∈ cs.map PathComponent.text, text ≠ "" ∧ '/' ∉ text.toList :=
  List.forall_mem_map.2 fun c hc => (h c hc).2

/-- Components that read like plain names are these names. -/
theorem joined_eq_iff (h : ∀ c ∈ cs, c.IsPiece) (hk : k.IsPlain) :
    "/".intercalate (cs.map PathComponent.text) = "/".intercalate k ↔ cs = k.map .name := by
  constructor
  · intro htext
    have hwords := congrArg (Text.words '/') htext
    rw [words_intercalate (words_of_isPiece h),
      words_intercalate fun name hname => ⟨(hk name hname).1, (hk name hname).2.2.2⟩] at hwords
    rw [← map_ofPiece_text h, hwords]
    exact List.map_congr_left fun name hname => ofPiece_of_plain (hk name hname)
  · rintro rfl
    rw [List.map_map]
    exact congrArg _ (List.map_id k)

theorem isAbsolute_intercalate {texts : List String}
    (h : ∀ text ∈ texts, text ≠ "" ∧ '/' ∉ text.toList) :
    (Path.mk ("/".intercalate texts)).isAbsolute = false := by
  refine decide_eq_false fun hhead => ?_
  cases texts with
  | nil => cases hhead
  | cons text texts =>
    obtain ⟨⟨hne, hslash⟩, -⟩ := List.forall_mem_cons.1 h
    obtain ⟨c, cs, hcs⟩ := List.exists_cons_of_ne_nil (mt String.toList_eq_nil_iff.1 hne)
    have hfirst : ("/".intercalate (text :: texts)).toList.head? = some c := by
      cases texts <;> simp [hcs]
    rw [hcs] at hslash
    exact hslash (Option.some.inj (hfirst.symm.trans hhead) ▸ List.mem_cons_self)

theorem slashed_ofComponents (h : ∀ c ∈ cs, c.IsPiece ∧ c ≠ .here) :
    (Path.ofComponents cs).slashed = "/".intercalate (cs.map PathComponent.text) := by
  have hpiece : ∀ c ∈ cs, c.IsPiece := fun c hc => (h c hc).1
  have hpath : Path.ofComponents cs = ⟨"/".intercalate (cs.map PathComponent.text)⟩ := by
    cases cs with
    | nil => rfl
    | cons c cs =>
      cases c with
      | root => exact absurd (hpiece _ List.mem_cons_self).1 nofun
      | _ => rfl
  have hpieces : (Path.ofComponents cs).pieces = cs.map PathComponent.text := by
    rw [hpath]
    exact words_intercalate (words_of_isPiece hpiece)
  have hrel : (Path.ofComponents cs).isAbsolute = false :=
    hpath ▸ isAbsolute_intercalate (words_of_isPiece hpiece)
  have hdot : (Path.ofComponents cs).pieces.head? ≠ some "." := by
    rw [hpieces, List.head?_map]
    intro hhead
    obtain ⟨c, hc, htext⟩ := Option.map_eq_some_iff.1 hhead
    obtain ⟨⟨hself, -⟩, hhere⟩ := h c (List.mem_of_head? hc)
    rw [htext] at hself
    exact hhere hself.symm
  have hcomponents : (Path.ofComponents cs).components = cs := by
    rw [Path.components_of_relative hrel hdot, hpieces, Path.innerSteps, map_ofPiece_text hpiece,
      List.filter_eq_self]
    exact fun c hc => decide_eq_true (h c hc).2
  rw [Path.slashed, hcomponents]

/-! ## 2. Names below the schema root -/

theorem below?_of_components {root : Path} (h : p.components = root.components ++ cs) :
    root.below? p = some (Path.ofComponents cs) := by
  rw [Path.below?, h, if_pos (List.isPrefixOf_iff_prefix.2 (List.prefix_append _ _)), List.drop_left]

theorem below?_eq_none {root : Path} (h : ¬ root.components <+: p.components) :
    root.below? p = none :=
  if_neg (mt List.isPrefixOf_iff_prefix.1 h)

section Below

variable {r : Location} {p : Path} {cs : List PathComponent}
  (h : p.components = r.path.components ++ cs)

include h

theorem isAbsolute_of_below : p.isAbsolute = true := by
  cases habs : p.isAbsolute with
  | true => rfl
  | false =>
    have hroot : .root ∈ p.components := by
      rw [h, Path.components_of_absolute r.isAbsolute_path]
      exact List.mem_cons_self
    exact absurd (isPiece_of_relative habs _ hroot).1 nofun

theorem isPiece_of_below : ∀ c ∈ cs, c.IsPiece ∧ c ≠ .here := by
  rw [Path.components_of_absolute (isAbsolute_of_below h),
    Path.components_of_absolute r.isAbsolute_path, List.cons_append] at h
  intro c hc
  have hmem : c ∈ Path.innerSteps p.pieces :=
    (List.cons.inj h).2 ▸ List.mem_append_right _ hc
  exact isPiece_of_mem_innerSteps (fun _ => mem_words) hmem

/-- The name of a path below the root is that of a place there if the path is that of the place. -/
theorem slashed_below_iff {k : Location} (hl : (r ++ k).IsPlain) :
    (Path.ofComponents cs).slashed = "/".intercalate k ↔ p.components = (r ++ k).path.components := by
  obtain ⟨hr, hk⟩ : r.IsPlain ∧ k.IsPlain := List.forall_mem_append.1 hl
  rw [slashed_ofComponents (isPiece_of_below h), h,
    joined_eq_iff (fun c hc => (isPiece_of_below h c hc).1) hk, Location.components_path hl,
    Location.components_path hr, List.map_append, List.cons_append, List.cons_inj_right,
    List.append_cancel_left_eq]

end Below

theorem components_append {r : Location} (hl : (r ++ k).IsPlain) :
    (r ++ k).path.components = r.path.components ++ k.map .name := by
  have hr : r.IsPlain := (List.forall_mem_append.1 hl).1
  rw [Location.components_path hl, Location.components_path hr, List.map_append, List.cons_append]

theorem slashed_relative {r : Location} (hl : (r ++ k).IsPlain)
    (h : p.components = (r ++ k).path.components) :
    (Catalog.relative r.path p).slashed = "/".intercalate k := by
  have hbelow := h.trans (components_append hl)
  rw [Catalog.relative, below?_of_components hbelow]
  exact (slashed_below_iff hbelow hl).2 h

section SkipNames

open Run

variable {fs : FileSystem} {r k : Location} {p : Path}

theorem skipName_of_below {cs : List PathComponent} (h : p.components = r.path.components ++ cs) :
    skipName fs r.path p = (Path.ofComponents cs).slashed := by
  rw [skipName, below?_of_components h]
  rfl

theorem skipName_of_place (hoff : ¬ r.path.components <+: p.components) {m : Location}
    (hm : fs.canonicalize p = .ok m) {cs : List PathComponent}
    (h : m.path.components = r.path.components ++ cs) :
    skipName fs r.path p = (Path.ofComponents cs).slashed := by
  rw [skipName, below?_eq_none hoff, hm]
  simp only [below?_of_components h]
  rfl

theorem skipName_of_none (hoff : ¬ r.path.components <+: p.components)
    (hnone : ∀ m, fs.canonicalize p = .ok m → ¬ r.path.components <+: m.path.components) :
    skipName fs r.path p = p.slashed := by
  rw [skipName, below?_eq_none hoff]
  cases hm : fs.canonicalize p with
  | error => rfl
  | ok m =>
    simp only [below?_eq_none (hnone m hm)]
    rfl

/-- A root file is looked up under the name of its place just if its path spells the place out. -/
theorem skipName_eq_iff (hl : (r ++ k).IsPlain)
    (hplace : fs.canonicalize (r.path.join p) = .ok (r ++ k)) :
    skipName fs r.path p = "/".intercalate k ↔ SpellsOut fs r.path (r ++ k) p := by
  have hwithin : r.path.components <+: (r ++ k).path.components :=
    ⟨_, (components_append hl).symm⟩
  by_cases hbelow : r.path.components <+: p.components
  · obtain ⟨cs, hcs⟩ := hbelow
    have habs := isAbsolute_of_below hcs.symm
    rw [skipName_of_below hcs.symm, slashed_below_iff hcs.symm hl]
    refine ⟨.straight, fun hspells => ?_⟩
    cases hspells with
    | straight hsame => exact hsame
    | followed _ hoff => exact absurd ⟨cs, hcs⟩ hoff
    | fromHere hrel => simp [habs] at hrel
    | fromRoot hrel => simp [habs] at hrel
  cases habs : p.isAbsolute with
  | true =>
    rw [Path.join, if_pos habs] at hplace
    rw [skipName_of_place hbelow hplace (components_append hl)]
    exact iff_of_true ((slashed_below_iff (components_append hl) hl).2 rfl) (.followed habs hbelow)
  | false =>
    -- The name comes from where the path leads from here; `hplace` starts at the root.
    by_cases hhere : ∃ m, fs.canonicalize p = .ok m ∧ r.path.components <+: m.path.components
    · obtain ⟨m, hm, cs, hcs⟩ := hhere
      rw [skipName_of_place hbelow hm hcs.symm, slashed_below_iff hcs.symm hl]
      refine ⟨.fromHere habs hm, fun hspells => ?_⟩
      cases hspells with
      | straight hsame => exact absurd (hsame ▸ hwithin) hbelow
      | followed hyes => simp [habs] at hyes
      | fromHere _ hm' hsame => exact Except.ok.inj (hm.symm.trans hm') ▸ hsame
      | fromRoot _ hoff => exact absurd ⟨cs, hcs⟩ (hoff m hm)
    · have hoff (m : Location) (hm : fs.canonicalize p = .ok m) :
          ¬ r.path.components <+: m.path.components := fun hin => hhere ⟨m, hm, hin⟩
      have hk : k.IsPlain := (List.forall_mem_append.1 hl).2
      rw [skipName_of_none hbelow hoff, Path.slashed, joined_eq_iff (isPiece_of_relative habs) hk]
      constructor
      · intro hcomponents
        exact .fromRoot habs hoff (by rw [components_append hl, hcomponents])
      · intro hspells
        cases hspells with
        | straight hsame => exact absurd (hsame ▸ hwithin) hbelow
        | followed hyes => simp [habs] at hyes
        | @fromHere m _ hm hsame => exact absurd (hsame ▸ hwithin) (hoff m hm)
        | fromRoot _ _ hsame =>
          rw [components_append hl] at hsame
          exact List.append_cancel_left hsame

end SkipNames

/-! ## 3. Recorded names -/

theorem isFiled_add (hc : c.IsFiled) {l : Location} {f : SchemaFile} (hpath : f.path = l.path) :
    (c.add l f).IsFiled := by
  intro entry hentry
  cases hentry with
  | head => exact ⟨{ f with id := c.graph.nextId }, List.getElem?_concat_length, hpath⟩
  | tail _ hold =>
    obtain ⟨e, he, hsame⟩ := hc entry hold
    have hlt : entry.2 < c.graph.files.length := (List.getElem?_eq_some_iff.1 he).1
    exact ⟨e, (List.getElem?_append_left hlt).trans he, hsame⟩

/-- Loading files what it reads under its path, whatever file system it reads. -/
theorem isFiled_of_loads {c' : Catalog} {r : Request} {result : Except LoadError (List FileId)}
    (h : Loads fs c r result c') (hc : c.IsFiled) : c'.IsFiled := by
  induction h with
  | known | unread | done | unresolved | cycle => exact hc
  | stuck _ _ _ ih | refused _ _ _ _ ih | failed _ _ _ ih => exact ih hc
  | nextFails _ _ _ _ ih ih' | next _ _ _ _ ih ih' => exact ih' (ih hc)
  | @added _ after _ _ _ _ _ _ _ hbuild ih =>
    have hleft : after.leave.IsFiled := ih hc
    exact isFiled_add hleft (Catalog.build_path hbuild)

theorem isFiled_of_reached {dir : Path} {start : Catalog} {seen : List FileSystem}
    (hstart : Catalog.ofRoot fs dir = .ok start) (hreached : ReachedOver start seen c) :
    c.IsFiled := by
  induction hreached with
  | start =>
    unfold Catalog.ofRoot at hstart
    split at hstart
    · cases hstart
      exact nofun
    · cases hstart
  | @load _ c fs' p _ ih =>
    cases hl : fs'.canonicalize (c.root.join p) with
    | error cause =>
      rw [Catalog.load_of_error hl]
      exact ih
    | ok l =>
      rw [Catalog.load_of_ok hl]
      exact isFiled_of_loads ((Catalog.loads_both fs').1 c l) ih

/-- The number that a load gives is that of a file from the place that the path leads to. -/
theorem file_of_load {catalog : Catalog} (hc : c.IsFiled) {l : Location}
    (hl : fs.canonicalize (c.root.join p) = .ok l) {id : FileId}
    (hload : (Catalog.load fs p).run c = (.ok id, catalog)) :
    ∃ f, catalog.graph.file? id = some f ∧ f.path.same l.path = true := by
  rw [Catalog.load_of_ok hl] at hload
  have hloads := (Catalog.loads_both fs).1 c l
  rw [hload] at hloads
  cases hloads with
  | known hloaded =>
    -- The file may have been loaded from another file system, so only the invariant tells its path.
    obtain ⟨entry, hentry, rfl⟩ := Option.map_eq_some_iff.1 hloaded
    obtain ⟨f, hf, hpath⟩ := hc entry (List.mem_of_find?_eq_some hentry)
    have hfound := List.find?_some hentry
    rw [← hpath] at hfound
    exact ⟨f, hf, hfound⟩
  | @added _ after _ _ _ f _ _ _ hbuild =>
    have hpath : f.path = l.path := Catalog.build_path hbuild
    exact ⟨{ f with id := after.graph.nextId }, List.getElem?_concat_length,
      decide_eq_true (congrArg Path.components hpath)⟩

theorem recorded_of_reached {dir : Path} {start : Catalog} {seen : List FileSystem}
    (hstart : Catalog.ofRoot fs dir = .ok start) (hreached : ReachedOver start seen c)
    {f : SchemaFile} (hf : f ∈ c.graph.files) : f.file = Catalog.relative start.root f.path := by
  obtain ⟨hc, hroot⟩ := Catalog.grown_of_ofRoot hstart hreached
  obtain ⟨i, hi⟩ := List.getElem?_of_mem hf
  obtain ⟨g, l, d, ⟨-, ⟨imported, hbuild⟩, -⟩, -, -⟩ := hc.graph.origin hi
  have hfile : f.file = Catalog.relative c.root l.path :=
    congrArg (·.2.2.1) (Catalog.build_place hbuild)
  rw [hfile, Catalog.build_path hbuild, hroot]

/-! ## 4. Root files that can be read -/

open Run EventOrderLemmas GeneratedRunsLemmas

theorem todo_of_handled (refuses : SchemaFile → Bool) {handled : List Path}
    {files : List SchemaFile} (h : ∀ f ∈ files, f.path ∈ handled) :
    todo refuses handled files = [] := by
  refine List.eq_nil_iff_forall_not_mem.2 fun f hf => ?_
  have hnew := (nodup_todo refuses handled files).2 f.path (List.mem_map_of_mem hf)
  exact hnew (h f (CollisionsLemmas.mem_of_mem_todo hf))

theorem passesOver_iff {plan : Plan σ} {s : Session σ} (hread : s.cannotRead p = false) :
    s.PassesOver plan p ↔
      plan.skip.skips (skipName s.workspace.files s.catalog.root p) = true := by
  constructor
  · intro hrun
    by_contra hskip
    have hleaves : s.leavesOut plan p = false := by
      rw [Session.leavesOut_eq, hread, Bool.eq_false_iff.2 hskip]
      rfl
    -- No file was added to those handled, so each one visited had been met, and none is counted.
    obtain ⟨⟨-, hhandled, hstats⟩, -⟩ := rootFile_composes (composes_tallies plan) hrun
    have hold : ∀ f ∈ (visitAt plan p s).flatMap Visit.files, f.path ∈ s.handled :=
      fun f hf => (hhandled f.path).2 (.inr (List.mem_map_of_mem hf))
    rw [todo_of_handled _ hold, todo_of_handled _ hold, leftAt, hleaves] at hstats
    exact Nat.succ_ne_self _ (congrArg Stats.skipped hstats)
  · intro hskip
    rw [Session.PassesOver, rootFile_run, if_pos hskip]

theorem skips_literal (start name : String) :
    SkipList.skips ⟨[⟨[start.toList]⟩]⟩ name = true ↔ start.toList <+: name.toList := by
  simp [SkipList.skips, SkipPattern.matchesChars]

/-- Skip lists tell any two names apart. -/
theorem name_eq_of_skips {name name' : String}
    (h : ∀ list : SkipList, list.skips name = true ↔ list.skips name' = true) : name = name' := by
  have hfront : name.toList <+: name'.toList :=
    (skips_literal name name').1 ((h _).1 ((skips_literal name name).2 List.prefix_rfl))
  have hback : name'.toList <+: name.toList :=
    (skips_literal name' name).1 ((h _).2 ((skips_literal name' name').2 List.prefix_rfl))
  exact String.toList_inj.1 (hfront.eq_of_length (Nat.le_antisymm hfront.length_le hback.length_le))

end SkipNamesLemmas

open SkipNamesLemmas in
/-- What becomes of a root file that can be read and that lies below the schema root, at `k` seen
from there. A run passes over it if the skip list has the name that comes from its path. Once
loaded, it is recorded under the name of its place. That name decides, whatever the skip list is,
just if the path spells the place out. -/
theorem Run.skips_by_place_iff {fs : FileSystem} {dir : Path} {start : Catalog}
    {seen : List FileSystem} {s : Session σ} (hstart : Catalog.ofRoot fs dir = .ok start)
    (hreached : ReachedOver start seen s.catalog) {r k : Location}
    (hroot : s.catalog.root = r.path) {p : Path}
    (hplace : s.workspace.files.canonicalize (s.catalog.root.join p) = .ok (r ++ k))
    (hread : s.cannotRead p = false) (plan : Plan σ) :
    (∀ list, s.PassesOver { plan with skip := list } p ↔
      list.skips (Run.skipName s.workspace.files s.catalog.root p) = true) ∧
    (∀ id catalog, (Catalog.load s.workspace.files p).run s.catalog = (.ok id, catalog) →
      ∃ f, catalog.graph.file? id = some f ∧ f.path.same (r ++ k).path = true ∧
        f.file.slashed = "/".intercalate k) ∧
    ((∀ list, s.PassesOver { plan with skip := list } p ↔
        list.skips ("/".intercalate k) = true) ↔
      Run.SpellsOut s.workspace.files s.catalog.root (r ++ k) p) := by
  have hl : (r ++ k).IsPlain := by
    refine FileSystem.plain_of_canonicalize (Path.isAbsolute_join ?_ p) hplace
    rw [hroot]
    exact r.isAbsolute_path
  have hpasses (list : SkipList) : s.PassesOver { plan with skip := list } p ↔
      list.skips (Run.skipName s.workspace.files s.catalog.root p) = true :=
    passesOver_iff hread
  refine ⟨hpasses, fun id catalog hload => ?_, ?_⟩
  · obtain ⟨f, hf, hsame⟩ := file_of_load (isFiled_of_reached hstart hreached) hplace hload
    have hloaded : ReachedOver start (s.workspace.files :: seen) catalog := by
      have hnext := ReachedOver.load s.workspace.files p hreached
      rwa [hload] at hnext
    have hstay : start.root = r.path := (Catalog.grown_of_ofRoot hstart hreached).2.symm.trans hroot
    refine ⟨f, hf, hsame, ?_⟩
    rw [recorded_of_reached hstart hloaded (List.mem_of_getElem? hf), hstay]
    exact slashed_relative hl (of_decide_eq_true hsame)
  · rw [hroot] at hplace hpasses ⊢
    rw [← skipName_eq_iff hl hplace]
    constructor
    · exact fun hall => name_eq_of_skips fun list => (hpasses list).symm.trans (hall list)
    · intro hname list
      rw [hpasses, hname]

namespace Detour

open Refusal

/-- A path out of the schema root and back to the file that is to be skipped. -/
def path : Path :=
  ⟨"/s/../s/c"⟩

/-- The file that is to be skipped. -/
def recorded : SchemaFile :=
  SchemaFile.empty 0 ⟨"/s"⟩ ⟨"c"⟩ ⟨"/s/c"⟩

/-- The catalog with this file. -/
def loaded : Catalog :=
  ⟨⟨"/s"⟩, ⟨[recorded]⟩, [(⟨"/s/c"⟩, 0)], []⟩

/-- What the session finds at both paths, and what it does with the file. -/
theorem steps :
    (session.workspace.files.canonicalize (session.catalog.root.join ⟨"/s/c"⟩) = .ok ["s", "c"] ∧
      session.workspace.files.canonicalize (session.catalog.root.join path) = .ok ["s", "c"]) ∧
    session.cannotRead path = false ∧ plan.skip.skips "c" = true ∧
    Catalog.loadWithin session.workspace.files 1 path session.catalog = some (.ok 0, loaded) ∧
    (∃ r ∈ session.runWithin plan 1 (pure ()) [⟨"/s/c"⟩], r.2.2.1 = .ok ⟨0, 0, 0, 1⟩) ∧
    ∃ r ∈ session.runWithin plan 1 (pure ()) [path], r.2.2.1 = .ok ⟨1, 0, 0, 0⟩ := by
  decide +kernel

theorem run_straight : (Session.run plan [⟨"/s/c"⟩] session).1 = .ok ⟨0, 0, 0, 1⟩ := by
  obtain ⟨-, -, -, -, ⟨_, hwithin, h⟩, -⟩ := steps
  rwa [(Session.run_of_within hwithin fun _ _ => rfl).1]

theorem run_detour : (Session.run plan [path] session).1 = .ok ⟨1, 0, 0, 0⟩ := by
  obtain ⟨-, -, -, -, -, _, hwithin, h⟩ := steps
  rwa [(Session.run_of_within hwithin fun _ _ => rfl).1]

theorem not_spellsOut :
    ¬ Run.SpellsOut session.workspace.files session.catalog.root (["s"] ++ ["c"]) path := by
  intro hspells
  cases hspells with
  | straight hsame => exact absurd hsame (by decide)
  | followed _ hoff => exact hoff (by decide)
  | fromHere hrel => exact absurd hrel (by decide)
  | fromRoot hrel => exact absurd hrel (by decide)

end Detour

open Refusal Detour in
/-- A file is on the skip list, under the name that it is recorded under. It is skipped at its own
path and told at a path that makes a detour to it. -/
theorem Run.detour_evades_skipping :
    ∃ plan s fs' catalog f,
      (Session.start settings ⟨"/s"⟩ target "" ()).run system = (.ok (plan, s), fs') ∧
      s.workspace.files.canonicalize ⟨"/s/c"⟩ = .ok ["s", "c"] ∧
      s.workspace.files.canonicalize ⟨"/s/../s/c"⟩ = .ok ["s", "c"] ∧
      (Catalog.load s.workspace.files ⟨"/s/../s/c"⟩).run s.catalog = (.ok 0, catalog) ∧
      catalog.graph.file? 0 = some f ∧ plan.skip.skips f.file.slashed = true ∧
      (Session.run plan [⟨"/s/c"⟩] s).1 = .ok ⟨0, 0, 0, 1⟩ ∧
      (Session.run plan [⟨"/s/../s/c"⟩] s).1 = .ok ⟨1, 0, 0, 0⟩ := by
  obtain ⟨⟨hstraight, hdetour⟩, -, hskips, hload, -⟩ := steps
  exact ⟨plan, session, systemWithOutput, loaded, recorded, start_refusal, hstraight, hdetour,
    Catalog.load_of_within hload, rfl, hskips, run_straight, run_detour⟩

open Refusal Detour in
/-- The path that makes a detour does not spell the place out, and so its name does not decide. -/
theorem Run.skips_by_place_iff_detour :
    Catalog.ofRoot system ⟨"/s"⟩ = .ok session.catalog ∧
      ReachedOver session.catalog [] session.catalog ∧
      session.catalog.root = Location.path ["s"] ∧
      session.workspace.files.canonicalize (session.catalog.root.join path) =
        .ok (["s"] ++ ["c"]) ∧
      session.cannotRead path = false ∧
      ¬ ∀ list, session.PassesOver { plan with skip := list } path ↔
        list.skips ("/".intercalate ["c"]) = true := by
  obtain ⟨⟨-, hdetour⟩, hread, -⟩ := steps
  have hstart := Session.catalog_of_start start_refusal
  have hroot : session.catalog.root = Location.path ["s"] := rfl
  have hall := Run.skips_by_place_iff hstart .start hroot hdetour hread plan
  exact ⟨hstart, .start, hroot, hdetour, hread, fun h => not_spellsOut (hall.2.2.1 h)⟩

end SchemaGen
