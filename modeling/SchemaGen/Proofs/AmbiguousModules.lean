import SchemaGen.Proofs.ModuleTree

/-!
# Modules with two files

An index declares a module by its name alone. The module is then either the source of that name in
the directory, or the index of the directory of that name, and there must not be both. A source gets
its name from a schema file and a directory from a package, and nothing keeps the two apart.

Results:
1. `Rust.sourceAt_mem_iff`, `Rust.indexPath_mem_iff`: which of the two files of a declared module a
   run has written.
2. `Rust.ambiguous_iff`: for every run that succeeds, the declared modules with two files.
-/

namespace SchemaGen

/-! ## Definitions -/

namespace Rust

/-- The source of a module in a directory. -/
def sourceAt (root : Path) (extension : String) (directory : List String) (name : String) : Path :=
  directory.foldl (· / ·) root / (name ++ extension)

/-- Both files that the module could be were written. -/
def Ambiguous (o : Output) (written : List Path) (directory : List String) (name : String) : Prop :=
  sourceAt o.root o.extension directory name ∈ written ∧
    indexPath o.root o.extension (directory ++ [name]) ∈ written

end Rust

/-! ## 1. Joined paths -/

namespace AmbiguousModulesLemmas

theorem same_of_eq {p q : Path} (h : p = q) : p.same q = true := by
  rw [h]
  exact decide_eq_true rfl

/-- A name is written behind a slash or at the start of the path. -/
theorem exists_text_join (p : Path) {name : String} (h : (Path.mk name).isAbsolute = false) :
    ∃ front : String, (p / name).text = front ++ name ∧
      (front = "" ∨ front.toList.getLast? = some '/') := by
  show ∃ front : String, (p.join ⟨name⟩).text = _ ∧ _
  rw [Path.join, if_neg (by simp [h])]
  split
  · next hend =>
    rw [Bool.or_eq_true, Path.endsWithSlash, decide_eq_true_eq] at hend
    refine ⟨p.text, rfl, hend.imp (fun hempty => ?_) id⟩
    simpa using hempty
  · exact ⟨p.text ++ "/", rfl, .inr (by simp)⟩

/-- An empty name only leaves a slash at the end. -/
theorem join_empty_join (p : Path) (name : String) : p / "" / name = p / name := by
  show (p.join ⟨""⟩).join ⟨name⟩ = p.join ⟨name⟩
  have hempty : (Path.mk "").isAbsolute = false := by decide
  rw [Path.join.eq_def p ⟨""⟩, if_neg (by simp [hempty])]
  split
  · rw [String.append_empty]
  · next hend =>
    have hslash : (Path.mk (p.text ++ "/" ++ "")).endsWithSlash = true := by
      simp [Path.endsWithSlash]
    rw [Path.join, Path.join, hslash, Bool.or_true, if_pos rfl, if_neg hend, String.append_empty]

/-- An extension alone is never taken for a name with that extension. -/
theorem join_extension_ne (p q : Path) {name : String} (h : Rust.IsModule name)
    (extension : String) : p / extension ≠ q / (name ++ extension) := by
  intro heq
  obtain ⟨front, hfront, -⟩ := exists_text_join q
    (OutputPathsLemmas.isAbsolute_fileName h.isStem extension)
  have htext : (p / extension).text = front ++ name ++ extension := by
    rw [heq, hfront, String.append_assoc]
  cases habsolute : (Path.mk extension).isAbsolute with
  | true =>
    -- The one path is the extension, and the other is longer.
    have hjoin : (p / extension).text = extension := by
      show (p.join ⟨extension⟩).text = extension
      rw [Path.join, if_pos habsolute]
    rw [hjoin] at htext
    have hlength := congrArg (·.toList.length) htext
    have hname := List.length_pos_iff.2 h.isStem.toList_ne_nil
    simp only [String.toList_append, List.length_append] at hlength
    omega
  | false =>
    -- Before the extension the one path ends with a slash, the other with the name.
    obtain ⟨front', hfront', hend⟩ := exists_text_join p habsolute
    rw [hfront'] at htext
    have hbefore : front' = front ++ name := (String.append_left_inj extension).1 htext
    rcases hend with hempty | hslash
    · have hlist := congrArg String.toList (hempty.symm.trans hbefore)
      rw [String.toList_append] at hlist
      exact h.isStem.toList_ne_nil (List.append_eq_nil_iff.1 hlist.symm).2
    · rw [hbefore, String.toList_append, List.getLast?_append_of_ne_nil _ h.isStem.toList_ne_nil]
        at hslash
      exact h.2.1 (List.mem_of_getLast? hslash)

end AmbiguousModulesLemmas

namespace Rust

open AmbiguousModulesLemmas ModuleFilesLemmas

/-! ## 2. Files of a declared module -/

/-- A declared module is the module of a file or of a package. -/
theorem module_cases {f : SchemaFile} {directory : List String} {name : String}
    (h : directory ++ [name] <+: modulesOf f) :
    packageModules f = directory ∧ fileModule f = name ∨
      directory ++ [name] <+: packageModules f := by
  rw [modulesOf, List.prefix_concat_iff] at h
  refine h.imp_left fun heq => ?_
  obtain ⟨hdirectory, hname⟩ := List.append_inj' heq (by simp)
  exact ⟨hdirectory.symm, (List.head_eq_of_cons_eq hname).symm⟩

/-- Each directory of a package has an index. -/
theorem mem_indexed_of_package {files : List SchemaFile} {f : SchemaFile} (hf : f ∈ files)
    {modules : List String} (h : modules <+: packageModules f) : modules ∈ indexed files := by
  have hbelow : ∃ next, modules ++ [next] <+: modulesOf f := by
    obtain ⟨after, hafter⟩ := h
    cases after with
    | nil => exact ⟨fileModule f, [], by rw [modulesOf, ← hafter]; simp⟩
    | cons next after => exact ⟨next, after ++ [fileModule f], by rw [modulesOf, ← hafter]; simp⟩
  obtain ⟨next, hnext⟩ := hbelow
  obtain ⟨names, hnames, -⟩ := declares_neededBy.2 ⟨f, hf, hnext⟩
  exact List.mem_map.2 ⟨_, hnames, rfl⟩

theorem ne_mod_of_mem {f : SchemaFile} {name : String} (h : name ∈ modulesOf f) : name ≠ "mod" := by
  rcases List.mem_append.1 h with hpackage | hfile
  · obtain ⟨word, -, rfl⟩ := List.mem_map.1 hpackage
    exact moduleName_ne_mod word
  · rw [List.mem_singleton.1 hfile]
    exact moduleName_ne_mod _

section Files

variable {root : Path} {extension : String} {files : List SchemaFile}
  (hnamed : ∀ f ∈ files, f.Named) {directory : List String} {name : String}

include hnamed

/-- The source of a module with a name is the source of a file, and no index. -/
theorem sourceAt_mem_iff (hdirectory : ∀ m ∈ directory, IsModule m) (hname : IsModule name)
    (hmod : name ≠ "mod") :
    sourceAt root extension directory name ∈ files.map (sourcePath root extension) ++
        (indexed files).map (indexPath root extension) ↔
      ∃ f ∈ files, packageModules f = directory ∧ fileModule f = name := by
  constructor
  · intro hmem
    rcases List.mem_append.1 hmem with hsource | hindex
    · obtain ⟨f, hf, hpath⟩ := List.mem_map.1 hsource
      rcases isModule_fileModule f with hfile | hnameless
      · obtain ⟨hdirectories, heq⟩ :=
          (Path.same_file_iff hfile.isStem hname.isStem extension).1 (same_of_eq hpath)
        have hnames := Path.names_of_same hdirectories
        rw [Rust.directory, names_directory root (hnamed f hf).isModule,
          names_directory root hdirectory] at hnames
        exact ⟨f, hf, List.append_cancel_left hnames, heq⟩
      · rw [sourcePath, hnameless, String.empty_append] at hpath
        exact absurd hpath (join_extension_ne _ _ hname extension)
    · obtain ⟨modules, -, hpath⟩ := List.mem_map.1 hindex
      have hsame := (Path.same_file_iff isStem_mod hname.isStem extension).1 (same_of_eq hpath)
      exact absurd hsame.2.symm hmod
  · rintro ⟨f, hf, rfl, rfl⟩
    exact List.mem_append_left _ (List.mem_map.2 ⟨f, hf, rfl⟩)

/-- The index of a directory with a name was written if the directory is one of a package. -/
theorem indexPath_mem_iff {modules : List String} (hmodules : ∀ m ∈ modules, IsModule m) :
    indexPath root extension modules ∈ files.map (sourcePath root extension) ++
        (indexed files).map (indexPath root extension) ↔
      ∃ f ∈ files, modules <+: packageModules f := by
  constructor
  · intro hmem
    rcases List.mem_append.1 hmem with hsource | hindex
    · obtain ⟨f, hf, hpath⟩ := List.mem_map.1 hsource
      have hapart : (sourcePath root extension f).same (indexPath root extension modules) = false :=
        not_same_indexPath (hnamed f hf).isModule hmodules (isModule_fileModule f)
      rw [same_of_eq hpath] at hapart
      cases hapart
    · obtain ⟨modules', hindexed, hpath⟩ := List.mem_map.1 hindex
      have heq := (same_indexPath_iff (isModule_of_indexed hnamed hindexed) hmodules).1
        (same_of_eq hpath)
      rw [← heq]
      exact mem_indexed hindexed
  · rintro ⟨f, hf, hpackage⟩
    exact List.mem_append_right _ (List.mem_map.2 ⟨_, mem_indexed_of_package hf hpackage, rfl⟩)

/-- The module of a file without a name has no directory of its own: the index of the directory
around it stands there. -/
theorem ambiguous_nameless {f : SchemaFile} (hf : f ∈ files) (hfile : fileModule f = "") :
    sourceAt root extension (packageModules f) "" ∈ files.map (sourcePath root extension) ++
        (indexed files).map (indexPath root extension) ∧
      indexPath root extension (packageModules f ++ [""]) ∈
        files.map (sourcePath root extension) ++
          (indexed files).map (indexPath root extension) := by
  have hindex : indexPath root extension (packageModules f ++ [""]) =
      indexPath root extension (packageModules f) := by
    rw [indexPath, List.foldl_concat, join_empty_join]
    rfl
  constructor
  · refine List.mem_append_left _ (List.mem_map.2 ⟨f, hf, ?_⟩)
    rw [sourcePath, hfile]
    rfl
  · rw [hindex]
    exact (indexPath_mem_iff hnamed (hnamed f hf).isModule).2 ⟨f, hf, List.prefix_rfl⟩

theorem both_mem_iff {directory : List String} {name : String}
    (hdeclared : ∃ f ∈ files, directory ++ [name] <+: modulesOf f) :
    (sourceAt root extension directory name ∈ files.map (sourcePath root extension) ++
          (indexed files).map (indexPath root extension) ∧
        indexPath root extension (directory ++ [name]) ∈ files.map (sourcePath root extension) ++
          (indexed files).map (indexPath root extension)) ↔
      (∃ f ∈ files, packageModules f = directory ∧ fileModule f = name) ∧
        (name = "" ∨ ∃ f ∈ files, directory ++ [name] <+: packageModules f) := by
  obtain ⟨f, hf, hmodule⟩ := hdeclared
  have hpackage := (hnamed f hf).isModule
  have hmod : name ≠ "mod" := ne_mod_of_mem (hmodule.mem (by simp))
  by_cases hname : name = ""
  · -- A package has no module without a name, so the file itself has none.
    rcases module_cases hmodule with ⟨rfl, hfile⟩ | hinside
    · rw [hname] at hfile ⊢
      exact iff_of_true (ambiguous_nameless hnamed hf hfile) ⟨⟨f, hf, rfl, hfile⟩, .inl rfl⟩
    · exact absurd hname (hpackage name (hinside.mem (by simp))).1
  · have hmodules : ∀ m ∈ directory ++ [name], IsModule m := by
      rcases module_cases hmodule with ⟨rfl, rfl⟩ | hinside
      · intro m hm
        rcases List.mem_append.1 hm with hdirectory | hlast
        · exact hpackage m hdirectory
        · rw [List.mem_singleton.1 hlast]
          exact (isModule_fileModule f).resolve_right hname
      · exact fun m hm => hpackage m (hinside.mem hm)
    have hdirectory : ∀ m ∈ directory, IsModule m :=
      fun m hm => hmodules m (List.mem_append_left _ hm)
    rw [sourceAt_mem_iff hnamed hdirectory (hmodules name (by simp)) hmod,
      indexPath_mem_iff hnamed hmodules, or_iff_right hname]

end Files

/-- An index declares the modules that its lines declare. -/
theorem mem_of_declaration {tool name : String} {names : List String}
    (h : s!"pub mod {name};" ∈ indexLines tool names) : name ∈ names := by
  change "pub mod " ++ name ++ ";" ∈ indexLines tool names at h
  rcases List.mem_append.1 h with hhead | hmodule
  · have hfirst (line : String) (hline : "pub mod " ++ name ++ ";" = line) :
        line.toList.head? = some 'p' := by
      rw [← hline, String.append_assoc, String.toList_append]
      rfl
    rcases List.mem_pair.1 hhead with hmarker | hblank
    · have hslash := hfirst ("// generated by " ++ tool ++ ", NEVER CHANGE!!") hmarker
      rw [String.append_assoc, String.toList_append] at hslash
      cases hslash
    · cases hfirst "" hblank
  · obtain ⟨other, hother, hline⟩ := List.mem_map.1 hmodule
    change "pub mod " ++ other ++ ";" = "pub mod " ++ name ++ ";" at hline
    rw [String.append_left_inj, String.append_right_inj] at hline
    rwa [← hline]

end Rust

/-- For every run of a session for Rust that succeeds: a module that an index declares has two files
exactly if it is the module of a file and also the directory of a package. -/
theorem Rust.ambiguous_iff {settings : Settings} {dir : Path} {fs fs' : FileSystem}
    {plan : Plan (List Child)} {s : Session (List Child)} {roots : List Path} {stats : Stats}
    (hstart : (Session.start settings dir target extension []).run fs = (.ok (plan, s), fs'))
    (hrun : (Session.run plan roots s).1 = .ok stats) :
    s.workspace.Writes
        ((s.told plan roots).map (sourceOf s.workspace.output.blank
            (Session.run plan roots s).2.catalog.graph) ++
          (indexes (neededBy (s.told plan roots))).map (indexOf s.workspace.output.blank))
        (Session.run plan roots s).2.workspace ∧
      ∀ i ∈ indexes (neededBy (s.told plan roots)), ∀ name,
        s!"pub mod {name};" ∈ (indexOf s.workspace.output.blank i).lines →
        (Ambiguous s.workspace.output
            (Session.run plan roots s).2.workspace.output.written i.1 name ↔
          (∃ f ∈ s.told plan roots, packageModules f = i.1 ∧ fileModule f = name) ∧
            (name = "" ∨ ∃ f ∈ s.told plan roots, i.1 ++ [name] <+: packageModules f)) := by
  obtain ⟨hplan, hfresh, hnotes, hgrown, houtput⟩ := Session.of_start hstart
  have hnamed : ∀ f ∈ s.told plan roots, f.Named := fun f hf => named_of_told hgrown hf
  have hwritten := written_of_run hplan hfresh hnotes hrun
  have hnone : s.workspace.output.written = [] := by
    rw [houtput]
    rfl
  refine ⟨writes_run hplan hfresh (Session.closed_of_start hstart) hnotes hrun,
    fun i hi name hline => ?_⟩
  have hdeclared := declares_neededBy.1 ⟨i.2, hi, mem_of_declaration hline⟩
  have hindexes : ((indexes (neededBy (s.told plan roots))).map fun i =>
      indexPath s.workspace.output.root s.workspace.output.extension i.1) =
      (indexed (s.told plan roots)).map
        (indexPath s.workspace.output.root s.workspace.output.extension) := by
    rw [indexed, List.map_map]
    rfl
  rw [Ambiguous, hwritten, hnone, List.nil_append, hindexes]
  exact both_mem_iff hnamed hdeclared

/-! ### A file called like a package -/

/-- A file of one package, and a file of the package that is called like the first file. -/
def namesakes : List (String × Node) :=
  [("a", .text "package p; message M \x7b \x7d"),
    ("b", .text "import \"a\"; package p.a; message N \x7b \x7d")]

/-- The session at its start. -/
def namesakeSession : Session (List Rust.Child) :=
  schemaSession Rust.extension [] namesakes

theorem start_namesakes :
    (Session.start twinSettings ⟨"/s"⟩ Rust.target Rust.extension []).run (schemaSystem namesakes) =
      (.ok (twinPlan Rust.target, namesakeSession), schemaSystemWithOutput namesakes) :=
  start_schemas _ _ _ namesakes

/-- The modules that the two files need. -/
def namesakeModules : List Rust.Child :=
  [⟨[], "p"⟩, ⟨["p"], "a"⟩, ⟨[], "p"⟩, ⟨["p"], "a"⟩, ⟨["p", "a"], "b"⟩]

/-- The files are loaded and told, and then the indexes are written. -/
theorem namesakes_within :
    ∃ r ∈ namesakeSession.runWithin (twinPlan Rust.target) 2
      (Rust.finishWith [([], ["p"]), (["p"], ["a"]), (["p", "a"], ["b"])]) [⟨"/s/b"⟩],
        r.2.1 = namesakeModules ∧
        (r.2.2.1 = .ok ⟨2, 2, 0, 0⟩ ∧ r.2.2.2.workspace.output.written =
          [⟨"/o/p/a.rs"⟩, ⟨"/o/p/a/b.rs"⟩, ⟨"/o/mod.rs"⟩, ⟨"/o/p/mod.rs"⟩, ⟨"/o/p/a/mod.rs"⟩] ∧
          r.2.2.2.workspace.files.read ⟨"/o/p/mod.rs"⟩ =
            .ok (Output.bytes (Rust.indexLines "pbgen" ["a"]))) ∧
        Rust.neededBy (SchemaFile.told Rust.target.refuses (r.1.flatMap Visit.files)) =
          namesakeModules ∧
        (∃ f ∈ SchemaFile.told Rust.target.refuses (r.1.flatMap Visit.files),
          Rust.packageModules f = ["p"] ∧ Rust.fileModule f = "a") ∧
        ∃ f ∈ SchemaFile.told Rust.target.refuses (r.1.flatMap Visit.files),
          ["p", "a"] <+: Rust.packageModules f := by
  decide +kernel

theorem namesakeIndexes : Rust.indexes namesakeModules =
    [([], ["p"]), (["p"], ["a"]), (["p", "a"], ["b"])] := by
  cbv

theorem run_namesakes :
    (Session.run (twinPlan Rust.target) [⟨"/s/b"⟩] namesakeSession).1 = .ok ⟨2, 2, 0, 0⟩ ∧
      (Session.run (twinPlan Rust.target) [⟨"/s/b"⟩] namesakeSession).2.workspace.output.written =
        [⟨"/o/p/a.rs"⟩, ⟨"/o/p/a/b.rs"⟩, ⟨"/o/mod.rs"⟩, ⟨"/o/p/mod.rs"⟩, ⟨"/o/p/a/mod.rs"⟩] ∧
      (Session.run (twinPlan Rust.target) [⟨"/s/b"⟩] namesakeSession).2.workspace.files.read
          ⟨"/o/p/mod.rs"⟩ = .ok (Output.bytes (Rust.indexLines "pbgen" ["a"])) := by
  obtain ⟨⟨_, _, _⟩, hwithin, rfl, h, -⟩ := namesakes_within
  rwa [(Session.run_of_within hwithin (Rust.finish_eq_finishWith namesakeIndexes)).1]

/-- One of the files is the module, and the other one lies below it. -/
theorem told_namesakes :
    Rust.neededBy (namesakeSession.told (twinPlan Rust.target) [⟨"/s/b"⟩]) = namesakeModules ∧
      (∃ f ∈ namesakeSession.told (twinPlan Rust.target) [⟨"/s/b"⟩],
        Rust.packageModules f = ["p"] ∧ Rust.fileModule f = "a") ∧
      ∃ f ∈ namesakeSession.told (twinPlan Rust.target) [⟨"/s/b"⟩],
        ["p", "a"] <+: Rust.packageModules f := by
  obtain ⟨⟨_, _, _⟩, hwithin, rfl, -, h⟩ := namesakes_within
  rwa [Session.told,
    (Session.run_of_within hwithin (Rust.finish_eq_finishWith namesakeIndexes)).2]

/-- The index of the package declares a module, and both files that it could be are written. -/
theorem Rust.module_with_two_files :
    ∃ plan s fs' stats names,
      (Session.start twinSettings ⟨"/s"⟩ target extension []).run (schemaSystem namesakes) =
        (.ok (plan, s), fs') ∧
      fs'.find twinSettings.outDir = .ok (.directory .full []) ∧
      (Session.run plan [⟨"/s/b"⟩] s).1 = .ok stats ∧
      (Session.run plan [⟨"/s/b"⟩] s).2.workspace.files.read ⟨"/o/p/mod.rs"⟩ =
        .ok (Output.bytes (indexLines "pbgen" names)) ∧
      "pub mod a;" ∈ indexLines "pbgen" names ∧
      ⟨"/o/p/a.rs"⟩ ∈ (Session.run plan [⟨"/s/b"⟩] s).2.workspace.output.written ∧
      ⟨"/o/p/a/mod.rs"⟩ ∈ (Session.run plan [⟨"/s/b"⟩] s).2.workspace.output.written := by
  obtain ⟨hok, hwritten, hread⟩ := run_namesakes
  refine ⟨_, _, _, _, ["a"], start_namesakes, empty_beside _, hok, hread, by decide, ?_⟩
  rw [hwritten]
  exact ⟨by decide, by decide⟩

/-- The module is that of the one file, and the other file lies in a package of its name. -/
theorem Rust.ambiguous_namesakes :
    ∃ plan s fs' stats,
      (Session.start twinSettings ⟨"/s"⟩ target extension []).run (schemaSystem namesakes) =
        (.ok (plan, s), fs') ∧
      (Session.run plan [⟨"/s/b"⟩] s).1 = .ok stats ∧
      (["p"], ["a"]) ∈ indexes (neededBy (s.told plan [⟨"/s/b"⟩])) ∧
      Ambiguous s.workspace.output (Session.run plan [⟨"/s/b"⟩] s).2.workspace.output.written
        ["p"] "a" := by
  obtain ⟨hneeded, hfile, hpackage⟩ := told_namesakes
  have hindex : (["p"], ["a"]) ∈
      indexes (neededBy (namesakeSession.told (twinPlan target) [⟨"/s/b"⟩])) := by
    rw [hneeded, namesakeIndexes]
    decide
  refine ⟨_, _, _, _, start_namesakes, run_namesakes.1, hindex, ?_⟩
  exact ((Rust.ambiguous_iff start_namesakes run_namesakes.1).2 _ hindex "a" (by decide)).2
    ⟨hfile, .inr hpackage⟩

end SchemaGen
