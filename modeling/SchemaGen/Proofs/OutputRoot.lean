import SchemaGen.Proofs.LaterRuns

/-!
# Where Java sources are put

The source of a definition lies in the directory of its Java package, below the output root. The
package can be any text, as the option `java_package` can. It is cut at its dots, so no segment is a
dot or two of them; but a segment can start with a slash, and what is joined there starts anew at the
root of the file system. That is the only way out, and this module says where it leads.

It speaks of all that a session has ever opened, also in runs that failed.

Results:
1. `Path.pieces_foldl`, `Path.foldl_rooted`: what comes of joining segments.
2. `Java.continues_root`, `Java.continues_of_stray`: the place of a source.
3. `written_placed`: the place of all that a session for Java has opened.
-/

namespace SchemaGen

open EventOrderLemmas OutputPathsLemmas CollisionsLemmas

variable {σ : Type}

/-! ## Definitions -/

/-- The path is `base` followed by `names`, which are plain; there is one at least. -/
structure Path.Continues (base : Path) (names : List String) (p : Path) : Prop where
  nonempty : names ≠ []
  plain : ∀ name ∈ names, IsPlainName name
  components : p.components = base.components ++ names.map .name

/-- The Java package of the file has a segment that starts with a slash. -/
def Java.Strays (f : SchemaFile) : Prop :=
  ∃ package, f.option? "java_package" = some package ∧
    ∃ segment ∈ Text.words '.' package, segment.toList.head? = some '/'

/-- The segments are the last ones of the file's Java package, and only the first of them starts with
a slash. -/
def Java.LastStray (f : SchemaFile) (segment : String) (others : List String) : Prop :=
  (∃ before, Text.words '.' (packageOf f) = before ++ segment :: others) ∧
    segment.toList.head? = some '/' ∧ ∀ other ∈ others, other.toList.head? ≠ some '/'

/-- The names that segments of a package and a file name give to a path. -/
def Java.namesOf (segments : List String) (file : String) : List String :=
  (segments.flatMap fun segment => (Path.mk segment).pieces) ++ [file]

/-! ## 1. Joined segments -/

namespace Path

/-- A text without dots is a path of plain names. -/
theorem isPlainName_of_mem_pieces {segment piece : String} (hdot : '.' ∉ segment.toList)
    (h : piece ∈ (Path.mk segment).pieces) : IsPlainName piece := by
  obtain ⟨hne, hslash⟩ := LocationLemmas.mem_words h
  have hno : '.' ∉ piece.toList := by
    obtain ⟨cs, hcs, rfl⟩ := List.mem_map.1 h
    rw [String.toList_ofList]
    exact fun hmem => hdot (mem_of_mem_split (List.mem_filter.1 hcs).1 hmem)
  refine ⟨hne, ?_, ?_, hslash⟩
  · rintro rfl
    exact hno (by decide)
  · rintro rfl
    exact hno (by decide)

theorem innerSteps_of_plain {pieces : List String} (h : ∀ piece ∈ pieces, IsPlainName piece) :
    innerSteps pieces = pieces.map .name := by
  have hsteps : pieces.map PathComponent.ofPiece = pieces.map .name := by
    refine List.map_congr_left fun piece hpiece => ?_
    obtain ⟨-, hdot, hdots, -⟩ := h piece hpiece
    rw [PathComponent.ofPiece, if_neg hdot, if_neg hdots]
  rw [innerSteps, hsteps, List.filter_eq_self]
  intro step hstep
  obtain ⟨piece, -, rfl⟩ := List.mem_map.1 hstep
  rfl

/-- A relative path of plain names is joined by putting these behind. -/
theorem components_join_of_plain (p : Path) {q : Path} (hq : q.isAbsolute = false)
    (h : ∀ piece ∈ q.pieces, IsPlainName piece) :
    (p.join q).components = p.components ++ q.pieces.map .name := by
  have hdot : q.pieces.head? ≠ some "." := by
    intro hhead
    exact (h "." (List.mem_of_mem_head? hhead)).2.1 rfl
  rw [components_join p hq hdot, components_of_relative hq hdot, innerSteps_of_plain h]

variable {segments : List String}

theorem pieces_foldl (hrelative : ∀ segment ∈ segments, segment.toList.head? ≠ some '/')
    (p : Path) :
    (segments.foldl (· / ·) p).isAbsolute = p.isAbsolute ∧
      (segments.foldl (· / ·) p).pieces =
        p.pieces ++ segments.flatMap fun segment => (Path.mk segment).pieces := by
  induction segments generalizing p with
  | nil => simp
  | cons segment rest ih =>
    obtain ⟨hfirst, hrest⟩ := List.forall_mem_cons.1 hrelative
    have hsegment : (Path.mk segment).isAbsolute = false := decide_eq_false hfirst
    obtain ⟨habs, hpieces⟩ := ih hrest (p / segment)
    rw [List.foldl_cons, List.flatMap_cons, ← List.append_assoc]
    exact ⟨habs.trans (isAbsolute_join_of_relative p hsegment),
      hpieces.trans (congrArg (· ++ _) (pieces_join p hsegment))⟩

/-- What stands before a segment with a slash at its front does not count. -/
theorem foldl_rooted {segment : String} (h : segment.toList.head? = some '/')
    (before others : List String) (p : Path) :
    (before ++ segment :: others).foldl (· / ·) p = others.foldl (· / ·) ⟨segment⟩ := by
  have hsegment : (Path.mk segment).isAbsolute = true := decide_eq_true h
  have hjoin (q : Path) : q / segment = ⟨segment⟩ := by
    show q.join ⟨segment⟩ = _
    rw [join, if_pos hsegment]
  rw [List.foldl_append, List.foldl_cons, hjoin]

end Path

/-! ## 2. The place of a source -/

namespace Java

variable {root : Path} {extension : String} {f : SchemaFile} {name : String}

theorem isPlainName_fileName (hname : Token.IsName name.toList) (hslash : '/' ∉ extension.toList) :
    IsPlainName (name ++ extension) := by
  obtain ⟨hne, -, hnone⟩ := isStem_of_isName hname
  -- A name may start with a dot, but then a letter follows.
  have hletter : ∃ c ∈ name.toList, c ≠ '.' := by
    obtain ⟨c, cs, hlist⟩ := List.exists_cons_of_ne_nil (isStem_of_isName hname).toList_ne_nil
    rw [hlist] at hname ⊢
    have hstart {c : Char} (h : Token.isNameStart c = true) : c ≠ '.' := by
      rintro rfl
      simp [Token.isNameStart] at h
    rcases (Token.isName_cons_iff.1 hname).1 with hfirst | ⟨-, hnext⟩
    · exact ⟨c, List.mem_cons_self, hstart hfirst⟩
    · obtain ⟨next, hhead, hsecond⟩ := (Option.any_eq_true _ _).1 hnext
      exact ⟨next, List.mem_cons_of_mem _ (List.mem_of_head? hhead), hstart hsecond⟩
  obtain ⟨c, hc, hdot⟩ := hletter
  have hmem : c ∈ (name ++ extension).toList := by
    rw [String.toList_append]
    exact List.mem_append_left _ hc
  refine ⟨fun heq => ?_, fun heq => ?_, fun heq => ?_, ?_⟩
  · rw [heq] at hmem
    cases hmem
  · rw [heq] at hmem
    simp [hdot] at hmem
  · rw [heq] at hmem
    simp [hdot] at hmem
  · rw [String.toList_append, List.mem_append, not_or]
    exact ⟨hnone, hslash⟩

/-- Segments hold no dots, and the file name is one piece. -/
theorem isPlainName_namesOf {segments : List String}
    (hsegments : ∀ segment ∈ segments, segment ∈ Text.words '.' (packageOf f))
    (hname : Token.IsName name.toList) (hslash : '/' ∉ extension.toList) :
    ∀ piece ∈ namesOf segments (name ++ extension), IsPlainName piece := by
  intro piece hpiece
  rcases List.mem_append.1 hpiece with hmem | hlast
  · obtain ⟨segment, hsegment, hpiece⟩ := List.mem_flatMap.1 hmem
    have hdot := (LocationLemmas.mem_words (hsegments segment hsegment)).2
    exact Path.isPlainName_of_mem_pieces hdot hpiece
  · rw [List.mem_singleton.1 hlast]
    exact isPlainName_fileName hname hslash

theorem map_namesOf (segments : List String) (file : String) :
    (namesOf segments file).map PathComponent.name =
      (segments.flatMap fun segment => (Path.mk segment).pieces).map .name ++ [.name file] := by
  rw [namesOf, List.map_append, List.map_singleton]

theorem components_fileName (hname : Token.IsName name.toList) (hslash : '/' ∉ extension.toList)
    (dir : Path) :
    (dir / (name ++ extension)).components = dir.components ++ [.name (name ++ extension)] := by
  have hplain := isPlainName_fileName hname hslash
  have hpieces := ResolutionLemmas.pieces_name hplain
  have hjoin := Path.components_join_of_plain dir (ResolutionLemmas.isAbsolute_name hplain)
    (by simpa [hpieces] using hplain)
  rw [hpieces] at hjoin
  exact hjoin

/-- Schema packages hold no slash, so only the option can lead astray. -/
theorem strays_iff (hnamed : f.Named) :
    Strays f ↔ ∃ segment ∈ Text.words '.' (packageOf f), segment.toList.head? = some '/' := by
  unfold Strays packageOf
  cases hoption : f.option? "java_package" with
  | some package => simp
  | none =>
    refine ⟨nofun, fun ⟨segment, hsegment, hhead⟩ => ?_⟩
    have hmem : '/' ∈ (f.package?.getD "").toList := by
      obtain ⟨cs, hcs, rfl⟩ := List.mem_map.1 hsegment
      rw [String.toList_ofList] at hhead
      exact mem_of_mem_split (List.mem_filter.1 hcs).1 (List.mem_of_mem_head? hhead)
    cases hpackage : f.package? with
    | none =>
      rw [hpackage] at hmem
      cases hmem
    | some package =>
      rw [hpackage] at hmem
      exact absurd hmem (isStem_of_isName (hnamed.package package hpackage)).2.2

theorem exists_lastStray (hnamed : f.Named) (hstrays : Strays f) :
    ∃ segment others, LastStray f segment others := by
  have hlast (segments : List String) (h : ∃ x ∈ segments, x.toList.head? = some '/') :
      ∃ before segment others, segments = before ++ segment :: others ∧
        segment.toList.head? = some '/' ∧ ∀ other ∈ others, other.toList.head? ≠ some '/' := by
    induction segments with
    | nil =>
      obtain ⟨x, hx, -⟩ := h
      cases hx
    | cons first rest ih =>
      by_cases hrest : ∃ x ∈ rest, x.toList.head? = some '/'
      · obtain ⟨before, segment, others, rfl, hfound⟩ := ih hrest
        exact ⟨first :: before, segment, others, rfl, hfound⟩
      · obtain ⟨x, hx, hhead⟩ := h
        rcases List.mem_cons.1 hx with rfl | hx
        · exact ⟨[], x, rest, rfl, hhead, fun other hother hslash => hrest ⟨other, hother, hslash⟩⟩
        · exact absurd ⟨x, hx, hhead⟩ hrest
  obtain ⟨before, segment, others, hsplit, hfound⟩ := hlast _ ((strays_iff hnamed).1 hstrays)
  exact ⟨segment, others, ⟨before, hsplit⟩, hfound⟩

/-- Without a segment that starts with a slash, sources lie below the output root. -/
theorem continues_root (hnamed : f.Named) (hname : name ∈ f.keptNames)
    (hslash : '/' ∉ extension.toList) (hstay : ¬ Strays f) :
    root.Continues (namesOf (Text.words '.' (packageOf f)) (name ++ extension))
      (sourcePath root extension f name) := by
  have hword := hnamed.names name ((keptNames_sublist f).mem hname)
  have hplain := isPlainName_namesOf (fun segment h => h) hword hslash (f := f)
  refine ⟨List.concat_ne_nil _ _, hplain, ?_⟩
  have hrelative : ∀ segment ∈ Text.words '.' (packageOf f), segment.toList.head? ≠ some '/' :=
    fun segment hsegment hhead => hstay ((strays_iff hnamed).2 ⟨segment, hsegment, hhead⟩)
  have hpackage := Path.pieces_foldl hrelative ⟨""⟩
  rw [← Path.ofPackage] at hpackage
  obtain ⟨habs, hpieces⟩ := hpackage
  rw [show (Path.mk "").pieces = [] from rfl, List.nil_append] at hpieces
  have hpieces' : ∀ piece ∈ (Path.ofPackage (packageOf f)).pieces, IsPlainName piece := by
    rw [hpieces]
    exact fun piece hpiece => hplain piece (List.mem_append_left _ hpiece)
  rw [sourcePath, components_fileName hword hslash, directory,
    Path.components_join_of_plain root habs hpieces', hpieces, map_namesOf, List.append_assoc]

/-- With one, they lie where the last of these leads. -/
theorem continues_of_stray (hnamed : f.Named) (hname : name ∈ f.keptNames)
    (hslash : '/' ∉ extension.toList) {segment : String} {others : List String}
    (hstray : LastStray f segment others) :
    Path.Continues ⟨"/"⟩ (namesOf (segment :: others) (name ++ extension))
      (sourcePath root extension f name) := by
  obtain ⟨⟨before, hsplit⟩, hhead, hothers⟩ := hstray
  have hword := hnamed.names name ((keptNames_sublist f).mem hname)
  have hparts : ∀ part ∈ segment :: others, part ∈ Text.words '.' (packageOf f) := by
    rw [hsplit]
    exact fun part hpart => List.mem_append_right _ hpart
  have hplain := isPlainName_namesOf hparts hword hslash
  refine ⟨List.concat_ne_nil _ _, hplain, ?_⟩
  obtain ⟨habs, hpieces⟩ := Path.pieces_foldl hothers ⟨segment⟩
  have hrooted : (others.foldl (· / ·) (Path.mk segment)).isAbsolute = true :=
    habs.trans (decide_eq_true hhead)
  have hdirectory : directory root f = others.foldl (· / ·) ⟨segment⟩ := by
    rw [directory, Path.ofPackage, hsplit, Path.foldl_rooted hhead, Path.join, if_pos hrooted]
  have hpieces' : ∀ piece ∈ (others.foldl (· / ·) (Path.mk segment)).pieces, IsPlainName piece := by
    rw [hpieces]
    exact fun piece hpiece => hplain piece (List.mem_append_left _ hpiece)
  rw [sourcePath, components_fileName hword hslash, hdirectory,
    Path.components_of_absolute hrooted, Path.innerSteps_of_plain hpieces', hpieces, map_namesOf,
    List.flatMap_cons, List.cons_append]
  rfl

end Java

/-! ## 3. What a session has opened -/

namespace Emit

variable {α β : Type}

/-- The step opens no file, also if it fails. -/
def Still (step : Emit σ α) : Prop :=
  ∀ w, (step.run w).2.output.written = w.output.written

theorem Still.bind {x : Emit σ α} {f : α → Emit σ β} (hx : x.Still) (hf : ∀ a, (f a).Still) :
    (x >>= f).Still := by
  intro w
  have hfirst := hx w
  rw [run_bind]
  rcases hrun : x.run w with ⟨(e | a), now⟩
  · rw [hrun] at hfirst
    exact hfirst
  · rw [hrun] at hfirst
    exact (hf a now).trans hfirst

theorem still_line (text : String) : (line text : Emit σ Unit).Still := by
  intro w
  rw [line_run]
  cases hcurrent : w.output.current with
  | none => rfl
  | some file => rw [(Workspace.type_pushed hcurrent [text]).written]

theorem steady_still : Steady fun _ (step : Emit σ _) => step.Still :=
  ⟨fun _ _ => rfl, fun _ _ => rfl, Still.bind, still_line, fun _ => rfl⟩

end Emit

namespace Java

/-- Also where it fails, handling an event opens nothing else. -/
theorem mem_written_handle {g : Graph} {f : SchemaFile} {e : Event} {w : Workspace Unit} {p : Path}
    (h : p ∈ ((handle g f e).run w).2.output.written) :
    p ∈ w.output.written ∨ p ∈ opened w.output.root w.output.extension f e := by
  by_cases hbegin : ∃ d, e = .beginDefinition d
  · obtain ⟨d, rfl⟩ := hbegin
    rw [handle_beginDefinition_run, Emit.prepare_run] at h
    rcases hopening : (Disk.opening
      (sourcePath w.output.root w.output.extension f d.name)).run w.settled with ⟨(cause | l), files⟩
    · rw [hopening] at h
      exact .inl h
    · rw [hopening] at h
      simp only at h
      rw [(Workspace.type_pushed rfl _).written] at h
      exact List.mem_append.1 h
  · rw [Emit.steady_still.java (fun d hd => absurd ⟨d, hd⟩ hbegin) w] at h
    exact .inl h

/-- All files opened are sources of definitions in the catalog, which has grown by loading. -/
structure Opened (root : Path) (extension : String) (c : Catalog) (w : Workspace Unit) : Prop where
  grown : ∃ seen, c.IsGrown seen
  writesTo : w.WritesTo root extension
  written : ∀ p ∈ w.output.written, ∃ f ∈ c.graph.files, ∃ name ∈ f.keptNames,
    p = sourcePath root extension f name

theorem maintains_opened {plan : Plan Unit} (hplan : plan.target = target) (root : Path)
    (extension : String) : plan.Maintains (Opened root extension) where
  load p c w h := by
    obtain ⟨seen, hgrown⟩ := h.grown
    refine ⟨⟨w.files :: seen, (hgrown.load w.files p).1⟩, h.writesTo, fun q hq => ?_⟩
    obtain ⟨f, hf, hsource⟩ := h.written q hq
    exact ⟨f, (Catalog.load_grows w.files p c).subset hf, hsource⟩
  handle c w f e h hf he := by
    rw [hplan]
    refine ⟨h.grown, h.writesTo.of_frame (opens_handle c.graph f e w).frame, fun q hq => ?_⟩
    rcases mem_written_handle hq with hold | hnew
    · exact h.written q hold
    · rw [h.writesTo.1, h.writesTo.2] at hnew
      rw [ofFile_eq_documented] at he
      have hmem : q ∈ f.documented.flatMap (opened root extension f) :=
        List.mem_flatMap.2 ⟨e, he, hnew⟩
      rw [opened_file] at hmem
      obtain ⟨name, hname, rfl⟩ := List.mem_map.1 hmem
      exact ⟨f, hf, name, hname, rfl⟩
  finish c w h := by
    rw [hplan]
    exact ⟨h.grown, h.writesTo, h.written⟩

end Java

/-- Where the files are that a session for Java has opened, in any runs, failed ones included. Each is
the source of a definition in the catalog. It is the output root followed by plain names, unless the
file has an option `java_package` with a segment that starts with a slash. Then it is the root of the
file system followed by plain names: those from the last such segment on, and the file name. -/
theorem written_placed {settings : Settings} {dir : Path} {fs fs' : FileSystem} {plan : Plan Unit}
    {s : Session Unit}
    (hstart : (Session.start settings dir Java.target Java.extension ()).run fs =
      (.ok (plan, s), fs'))
    (hslash : '/' ∉ (settings.fileExt.getD Java.extension).toList) (runs : List (List Path)) :
    let extension := settings.fileExt.getD Java.extension
    let now := s.afterRuns plan runs
    ∀ p ∈ now.workspace.output.written,
      ∃ f ∈ now.catalog.graph.files, ∃ name ∈ f.keptNames,
        p = Java.sourcePath settings.outDir extension f name ∧
        (¬ Java.Strays f → settings.outDir.Continues
          (Java.namesOf (Text.words '.' (Java.packageOf f)) (name ++ extension)) p) ∧
        (Java.Strays f → ∃ segment others, Java.LastStray f segment others ∧
          Path.Continues ⟨"/"⟩ (Java.namesOf (segment :: others) (name ++ extension)) p) := by
  intro extension now p hp
  obtain ⟨hplan, -, -, hgrown, houtput⟩ := Session.of_start hstart
  have hopened : Java.Opened settings.outDir extension s.catalog s.workspace := by
    refine ⟨⟨[], hgrown⟩, ⟨by rw [houtput]; rfl, by rw [houtput]; rfl⟩, ?_⟩
    rw [houtput]
    exact nofun
  obtain ⟨⟨seen, hnow⟩, -, hwritten⟩ :=
    (Java.maintains_opened hplan settings.outDir extension).runs runs hopened
  obtain ⟨f, hf, name, hname, rfl⟩ := hwritten p hp
  obtain ⟨i, hi⟩ := List.getElem?_of_mem hf
  have hnamed : f.Named := hnow.graph.named hi
  refine ⟨f, hf, name, hname, rfl, Java.continues_root hnamed hname hslash, fun hstrays => ?_⟩
  obtain ⟨segment, others, hlast⟩ := Java.exists_lastStray hnamed hstrays
  exact ⟨segment, others, hlast, Java.continues_of_stray hnamed hname hslash hlast⟩

/-! ### A package that starts with a slash -/

namespace Lone

open GeneratedRunsLemmas

variable (text : String) (f : SchemaFile)

/-- One file before a session. -/
def system : FileSystem := schemaSystem [("a", .text text)]

/-- The file and a place for outputs. -/
def systemWithOutput : FileSystem := schemaSystemWithOutput [("a", .text text)]

/-- The session at its start. -/
def session : Session Unit := schemaSession Java.extension () [("a", .text text)]

/-- The visit to the file, which is read as `f`. -/
def visit : Visit :=
  ⟨⟨⟨"/s"⟩, ⟨[f]⟩, [(⟨"/s/a"⟩, 0)], []⟩, f⟩

theorem start_lone :
    (Session.start twinSettings ⟨"/s"⟩ Java.target Java.extension ()).run (system text) =
      (.ok (twinPlan Java.target, session text), systemWithOutput text) :=
  start_schemas _ _ _ _

/-- The session over the file, as far as it can be evaluated. -/
def within : Option (List Visit × Unit × Except RunError Stats × Session Unit) :=
  (session text).runWithin (twinPlan Java.target) 1 Java.target.finish [⟨"/s/a"⟩]

variable {text}

theorem run_lone {r : List Visit × Unit × Except RunError Stats × Session Unit}
    (h : r ∈ within text) :
    Session.run (twinPlan Java.target) [⟨"/s/a"⟩] (session text) = r.2.2 ∧
      (session text).visited (twinPlan Java.target) [⟨"/s/a"⟩] = r.1 :=
  Session.run_of_within h fun _ _ => rfl

/-- A package that starts at the root of the file system. -/
def strayText : String :=
  "package p; option java_package = \"/x\"; message M \x7b \x7d"

theorem run_stray :
    (Session.run (twinPlan Java.target) [⟨"/s/a"⟩] (session strayText)).1 = .ok ⟨1, 1, 0, 0⟩ ∧
      (Session.run (twinPlan Java.target) [⟨"/s/a"⟩]
        (session strayText)).2.workspace.output.written = [⟨"/x/M.java"⟩] := by
  have hruns : ∃ r ∈ within strayText, r.2.2.1 = .ok ⟨1, 1, 0, 0⟩ ∧
      r.2.2.2.workspace.output.written = [⟨"/x/M.java"⟩] := by
    decide +kernel
  obtain ⟨_, hwithin, h⟩ := hruns
  rwa [(run_lone hwithin).1]

end Lone

open Lone in
/-- A run can succeed and yet write outside the output root. -/
theorem written_astray :
    ∃ plan s fs' stats,
      (Session.start twinSettings ⟨"/s"⟩ Java.target Java.extension ()).run (system strayText) =
        (.ok (plan, s), fs') ∧
      '/' ∉ (twinSettings.fileExt.getD Java.extension).toList ∧
      (Session.run plan [⟨"/s/a"⟩] s).1 = .ok stats ∧
      ∃ p ∈ (Session.run plan [⟨"/s/a"⟩] s).2.workspace.output.written,
        ¬ ∃ names, twinSettings.outDir.Continues names p := by
  refine ⟨_, _, _, _, start_lone strayText, by decide, run_stray.1, ⟨"/x/M.java"⟩, ?_, ?_⟩
  · rw [run_stray.2]
    exact List.mem_cons_self
  · rintro ⟨names, hcontinues⟩
    have hcomponents := hcontinues.components
    rw [show (Path.mk "/x/M.java").components = [.root, .name "x", .name "M.java"] by decide +kernel,
      show twinSettings.outDir.components = [.root, .name "o"] by decide +kernel] at hcomponents
    simp at hcomponents

open Lone in
/-- The package leads to a place at the root of the file system. -/
theorem written_placed_astray :
    (Session.start twinSettings ⟨"/s"⟩ Java.target Java.extension ()).run (system strayText) =
        (.ok (twinPlan Java.target, session strayText), systemWithOutput strayText) ∧
      '/' ∉ (twinSettings.fileExt.getD Java.extension).toList ∧
      let now := (session strayText).afterRuns (twinPlan Java.target) [[⟨"/s/a"⟩]]
      now.workspace.output.written = [⟨"/x/M.java"⟩] ∧
      ∃ f ∈ now.catalog.graph.files, ∃ name ∈ f.keptNames,
        ⟨"/x/M.java"⟩ = Java.sourcePath ⟨"/o"⟩ ".java" f name ∧
        (¬ Java.Strays f → Path.Continues ⟨"/o"⟩
          (Java.namesOf (Text.words '.' (Java.packageOf f)) (name ++ ".java")) ⟨"/x/M.java"⟩) ∧
        (Java.Strays f → ∃ segment others, Java.LastStray f segment others ∧
          Path.Continues ⟨"/"⟩ (Java.namesOf (segment :: others) (name ++ ".java"))
            ⟨"/x/M.java"⟩) := by
  have hslash : '/' ∉ (twinSettings.fileExt.getD Java.extension).toList := by decide
  have hwritten : ((session strayText).afterRuns (twinPlan Java.target)
      [[⟨"/s/a"⟩]]).workspace.output.written = [⟨"/x/M.java"⟩] := run_stray.2
  refine ⟨start_lone strayText, hslash, hwritten, ?_⟩
  exact written_placed (start_lone strayText) hslash [[⟨"/s/a"⟩]] ⟨"/x/M.java"⟩
    (hwritten ▸ List.mem_cons_self)

end SchemaGen
