import SchemaGen.Proofs.OutputPaths
import SchemaGen.Proofs.WrittenFiles

/-!
# Files of Rust modules

The names of modules are lowered and mended until they can be names in a source. What stays out of
them is what counts here: no slash that was not in the name, no dot at all, and never the name of an
index. So directories of modules can be read off a path, and no index is the source of a file or the
index of another directory.

Results:
1. `Rust.isModule_moduleName`, `Rust.moduleName_ne_mod`: what names of modules are like.
2. `Rust.nodup_indexed`, `Rust.mem_indexed`: the directories that get an index.
3. `Rust.same_sourcePath_iff`, `Rust.same_indexPath_iff`, `Rust.not_same_indexPath`: which of the
   paths are the same.
-/

namespace SchemaGen.Rust

open OutputPathsLemmas

/-! ## Definitions -/

/-- A name that a directory or a source file of a module can have. -/
def IsModule (name : String) : Prop :=
  name ≠ "" ∧ '/' ∉ name.toList ∧ '.' ∉ name.toList

/-- The characters that matter in paths. -/
def IsPathMark (c : Char) : Prop :=
  c = '/' ∨ c = '.'

/-! ## 1. Names of modules -/

namespace ModuleFilesLemmas

theorem toNat_ofNat (n : Nat) : (Char.ofNat n).toNat = n ∨ (Char.ofNat n).toNat = 0 := by
  by_cases h : n.isValidChar
  · exact .inl (congrArg Char.toNat (dif_pos h))
  · exact .inr (congrArg Char.toNat (dif_neg h))

/-- Case tables lead to letters and marks on letters. -/
theorem not_mark_ofNat {n : Nat} (h : 0x30 ≤ n) : ¬ IsPathMark (Char.ofNat n) := by
  intro hmark
  have hval : (Char.ofNat n).toNat = 0x2f ∨ (Char.ofNat n).toNat = 0x2e := by
    rcases hmark with heq | heq
    · exact .inl (by rw [heq]; rfl)
    · exact .inr (by rw [heq]; rfl)
  rcases toNat_ofNat n with heq | heq <;> omega

theorem images_of_smallMapping : ∀ e ∈ Text.smallMapping, 0x30 ≤ e.2.2.2 := by
  decide +kernel

theorem images_of_smallExpansions :
    ∀ e ∈ Text.smallExpansions, e.2 ≠ [] ∧ ∀ n ∈ e.2, 0x30 ≤ n := by
  decide

theorem mapCase_small (c : Char) :
    Text.mapCase Text.smallMapping Text.smallExpansions c ≠ [] ∧
      ∀ x ∈ Text.mapCase Text.smallMapping Text.smallExpansions c, IsPathMark x → x = c := by
  unfold Text.mapCase
  split
  · next codes hlookup =>
    obtain ⟨before, after, htable, -⟩ := List.lookup_eq_some_iff.1 hlookup
    have hentry : (c.toNat, codes) ∈ Text.smallExpansions := by
      rw [htable]
      exact List.mem_append_right _ List.mem_cons_self
    obtain ⟨hne, himages⟩ := images_of_smallExpansions _ hentry
    refine ⟨by simpa using hne, fun x hx hmark => ?_⟩
    obtain ⟨n, hn, rfl⟩ := List.mem_map.1 hx
    exact absurd hmark (not_mark_ofNat (himages n hn))
  · split
    · next first last step image hfind =>
      have himage := images_of_smallMapping _ (List.mem_of_find?_eq_some hfind)
      refine ⟨by simp, fun x hx hmark => ?_⟩
      obtain rfl := List.mem_singleton.1 hx
      exact absurd hmark (not_mark_ofNat (Nat.le_add_right_of_le himage))
    · refine ⟨by simp, fun x hx _ => ?_⟩
      exact List.mem_singleton.1 hx

theorem small_keeps (c : Char) :
    Text.small c ≠ [] ∧ ∀ x ∈ Text.small c, IsPathMark x → x = c := by
  unfold Text.small
  split
  · next hascii =>
    refine ⟨by simp, fun x hx hmark => ?_⟩
    obtain rfl := List.mem_singleton.1 hx
    have hlower : ∀ n : Fin 128, (Char.ofNat n).toLower = '/' ∨ (Char.ofNat n).toLower = '.' →
        (Char.ofNat n).toLower = Char.ofNat n := by
      decide
    exact Token.of_ascii (P := fun c => c.toLower = '/' ∨ c.toLower = '.' → c.toLower = c) hlower
      (of_decide_eq_true hascii) hmark
  · exact mapCase_small c

theorem snakeAfter_ne_nil (before : Option Char) {cs : List Char} (h : cs ≠ []) :
    Text.snakeAfter before cs ≠ [] := by
  obtain ⟨c, cs, rfl⟩ := List.exists_cons_of_ne_nil h
  unfold Text.snakeAfter
  intro hnil
  obtain ⟨hlowered, -⟩ := List.append_eq_nil_iff.1 hnil
  split at hlowered
  · split at hlowered
    · cases hlowered
    · exact (small_keeps c).1 hlowered
  · cases hlowered

theorem mem_of_mem_snakeAfter {before : Option Char} {cs : List Char} {x : Char}
    (h : x ∈ Text.snakeAfter before cs) (hmark : IsPathMark x) : x ∈ cs := by
  induction cs generalizing before with
  | nil => cases h
  | cons c cs ih =>
    rw [Text.snakeAfter] at h
    rcases List.mem_append.1 h with hlowered | hrest
    · have hunderscore : ¬ IsPathMark '_' := by
        unfold IsPathMark
        decide
      split at hlowered
      · split at hlowered
        · rcases List.mem_cons.1 hlowered with rfl | hsmall
          · exact absurd hmark hunderscore
          · rw [(small_keeps c).2 x hsmall hmark]
            exact List.mem_cons_self
        · rw [(small_keeps c).2 x hlowered hmark]
          exact List.mem_cons_self
      · rw [List.mem_singleton.1 hlowered]
        exact List.mem_cons_self
    · exact List.mem_cons_of_mem _ (ih hrest)

theorem mem_of_mem_plainName {name : String} {x : Char} (h : x ∈ (plainName name).toList)
    (hmark : IsPathMark x) : x ∈ name.toList ∧ x ≠ '.' := by
  rw [plainName, String.toList_ofList] at h
  obtain ⟨c, hc, hx⟩ := List.mem_map.1 h
  split at hx
  · rw [← hx] at hmark
    rcases hmark with heq | heq <;> cases heq
  · next hne =>
    rw [← hx]
    exact ⟨hc, fun hdot => hne (.inr hdot)⟩

theorem escapeKeyword_cases (name : String) :
    escapeKeyword name = name ++ "_" ∨ escapeKeyword name = name ∧ name ∉ keywords := by
  unfold escapeKeyword
  split
  · exact .inl rfl
  · next hnot =>
    refine .inr ⟨rfl, fun hmem => hnot ?_⟩
    exact List.contains_iff_mem.2 hmem

/-- What is put around a name to make it the name of a module. -/
theorem moduleName_toList (name : String) :
    ∃ front back, (moduleName name).toList =
      front ++ Text.snakeAfter none (plainName name).toList ++ back ∧
        ∀ c ∈ front ++ back, c = '_' := by
  have hfield : ∃ back, (fieldName (plainName name)).toList =
      Text.snakeAfter none (plainName name).toList ++ back ∧ ∀ c ∈ back, c = '_' := by
    rcases escapeKeyword_cases (Text.snakeCase (plainName name)) with heq | ⟨heq, -⟩
    · refine ⟨['_'], ?_, by simp⟩
      rw [fieldName, heq, String.toList_append, Text.snakeCase, String.toList_ofList]
      rfl
    · refine ⟨[], ?_, nofun⟩
      rw [fieldName, heq, Text.snakeCase, String.toList_ofList, List.append_nil]
  obtain ⟨back, hback, hunderscores⟩ := hfield
  unfold moduleName
  simp only
  split
  · refine ⟨['_'], back, ?_, by simpa using hunderscores⟩
    rw [String.toList_append, hback]
    simp
  · exact ⟨[], back, hback, hunderscores⟩

theorem mem_of_mem_moduleName {name : String} {x : Char} (h : x ∈ (moduleName name).toList)
    (hmark : IsPathMark x) : x ∈ name.toList ∧ x ≠ '.' := by
  obtain ⟨front, back, hlist, hunderscores⟩ := moduleName_toList name
  have hx : x ≠ '_' := by
    rintro rfl
    rcases hmark with heq | heq <;> cases heq
  rw [hlist, List.append_assoc] at h
  rcases List.mem_append.1 h with hfront | hrest
  · exact absurd (hunderscores x (List.mem_append_left _ hfront)) hx
  rcases List.mem_append.1 hrest with hsnake | hback
  · exact mem_of_mem_plainName (mem_of_mem_snakeAfter hsnake hmark) hmark
  · exact absurd (hunderscores x (List.mem_append_right _ hback)) hx

end ModuleFilesLemmas

open ModuleFilesLemmas

theorem isModule_moduleName {name : String} (hne : name ≠ "") (hslash : '/' ∉ name.toList) :
    IsModule (moduleName name) := by
  refine ⟨?_, ?_, ?_⟩
  · obtain ⟨front, back, hlist, -⟩ := moduleName_toList name
    have hplain : (plainName name).toList ≠ [] := by
      simpa [plainName] using hne
    intro hempty
    rw [hempty] at hlist
    have hnil := (List.append_eq_nil_iff.1 (List.append_eq_nil_iff.1 hlist.symm).1).2
    exact snakeAfter_ne_nil none hplain hnil
  · intro hmem
    exact hslash (mem_of_mem_moduleName hmem (.inl rfl)).1
  · intro hmem
    exact (mem_of_mem_moduleName hmem (.inr rfl)).2 rfl

/-- A module is never called like an index. -/
theorem moduleName_ne_mod (name : String) : moduleName name ≠ "mod" := by
  have hfield : fieldName (plainName name) ≠ "mod" := by
    unfold fieldName
    rcases escapeKeyword_cases (Text.snakeCase (plainName name)) with heq | ⟨heq, hnot⟩
    · rw [heq]
      intro hmod
      have hlast := congrArg (·.toList.getLast?) hmod
      simp at hlast
    · rw [heq]
      rintro hmod
      rw [hmod] at hnot
      exact hnot (by decide)
  unfold moduleName
  simp only
  split
  · intro hmod
    have hhead := congrArg (·.toList.head?) hmod
    simp at hhead
  · exact hfield

/-! ## 2. Directories with modules -/

namespace ModuleFilesLemmas

theorem notBehind_iff_ge {a b : List String} :
    notBehind a b = true ↔ (List.lex b a fun x y => decide (x < y)) = false := by
  rw [notBehind, Bool.not_eq_true']

theorem notBehind_trans (a b c : List String) (hab : notBehind a b = true)
    (hbc : notBehind b c = true) : notBehind a c = true := by
  rw [notBehind_iff_ge, List.lex_eq_false_iff_ge] at *
  exact List.le_trans hab hbc

theorem notBehind_total (a b : List String) : (notBehind a b || notBehind b a) = true := by
  rw [Bool.or_eq_true, notBehind_iff_ge, notBehind_iff_ge, List.lex_eq_false_iff_ge,
    List.lex_eq_false_iff_ge]
  exact List.le_total a b

theorem notBehind_antisymm {a b : List String} (hab : notBehind a b = true)
    (hba : notBehind b a = true) : a = b := by
  rw [notBehind_iff_ge, List.lex_eq_false_iff_ge] at *
  exact List.le_antisymm hab hba

section Ordered

variable {α : Type} [DecidableEq α] {le : α → α → Bool}
  (antisymm : ∀ {a b}, le a b = true → le b a = true → a = b)

include antisymm

/-- In a sorted list equal items are neighbours, so leaving out repetitions leaves each item
once. -/
theorem eraseReps_loop {a : α} {items : List α}
    (h : (a :: items).Pairwise fun x y => le x y = true) (done : List α) :
    ∃ kept, List.eraseRepsBy.loop (· == ·) a items done = done.reverse ++ kept ∧
      (kept.Pairwise fun x y => le x y = true ∧ x ≠ y) ∧ ∀ x, x ∈ kept ↔ x ∈ a :: items := by
  induction items generalizing a done with
  | nil =>
    exact ⟨[a], by simp [List.eraseRepsBy.loop], List.pairwise_singleton _ a, fun _ => Iff.rfl⟩
  | cons b items ih =>
    obtain ⟨hfirst, hrest⟩ := List.pairwise_cons.1 h
    rw [List.eraseRepsBy.loop]
    by_cases hab : a = b
    · subst hab
      obtain ⟨kept, hloop, honce, hmem⟩ := ih hrest done
      rw [beq_self_eq_true]
      exact ⟨kept, hloop, honce, fun x => by simp [hmem x]⟩
    · obtain ⟨kept, hloop, honce, hmem⟩ := ih hrest (a :: done)
      have hbeq : (a == b) = false := by simp [hab]
      rw [hbeq]
      refine ⟨a :: kept, by simpa using hloop, List.pairwise_cons.2 ⟨fun y hy => ?_, honce⟩,
        fun x => by rw [List.mem_cons, hmem, List.mem_cons (a := x) (b := a)]⟩
      refine ⟨hfirst y ((hmem y).1 hy), ?_⟩
      rintro rfl
      rcases List.mem_cons.1 ((hmem a).1 hy) with heq | hlater
      · exact hab heq
      · exact hab (antisymm (hfirst b List.mem_cons_self)
          ((List.pairwise_cons.1 hrest).1 a hlater))

theorem ordered_spec (trans : ∀ a b c, le a b = true → le b c = true → le a c = true)
    (total : ∀ a b, (le a b || le b a) = true) (items : List α) :
    ((ordered le items).Pairwise fun x y => le x y = true ∧ x ≠ y) ∧
      ∀ x, x ∈ ordered le items ↔ x ∈ items := by
  have hsorted := List.pairwise_mergeSort trans total items
  have hperm := List.mergeSort_perm items le
  unfold ordered
  cases hitems : items.mergeSort le with
  | nil =>
    rw [hitems] at hperm
    exact ⟨.nil, fun x => hperm.mem_iff⟩
  | cons first rest =>
    rw [hitems] at hsorted hperm
    obtain ⟨kept, hkept, honce, hmem⟩ := eraseReps_loop antisymm hsorted []
    have hreps : (first :: rest).eraseReps = kept := hkept
    rw [hreps]
    exact ⟨honce, fun x => (hmem x).trans hperm.mem_iff⟩

end Ordered

theorem directory_of_children {directory names : List String} {c : Child}
    (h : c ∈ children directory names) :
    ∃ n, n < names.length ∧ c.directory = directory ++ names.take n := by
  induction names generalizing directory with
  | nil => cases h
  | cons name names ih =>
    rcases List.mem_cons.1 h with rfl | hrest
    · exact ⟨0, Nat.succ_pos _, (List.append_nil _).symm⟩
    · obtain ⟨n, hn, hdirectory⟩ := ih hrest
      refine ⟨n + 1, Nat.succ_lt_succ hn, ?_⟩
      rw [hdirectory, List.append_assoc]
      rfl

end ModuleFilesLemmas

/-- The directories that get an index. -/
def indexed (files : List SchemaFile) : List (List String) :=
  (indexes (neededBy files)).map (·.1)

theorem indexed_eq (files : List SchemaFile) :
    indexed files = ordered notBehind ((neededBy files).map (·.directory)) := by
  rw [indexed, indexes, List.map_map]
  exact List.map_id _

/-- Each directory gets one index. -/
theorem nodup_indexed (files : List SchemaFile) : (indexed files).Nodup := by
  rw [indexed_eq]
  exact (ordered_spec notBehind_antisymm notBehind_trans notBehind_total _).1.imp And.right

/-- The directories with an index are those of packages and the ones around them. -/
theorem mem_indexed {files : List SchemaFile} {directory : List String}
    (h : directory ∈ indexed files) : ∃ f ∈ files, directory <+: packageModules f := by
  rw [indexed_eq] at h
  have hneeded :=
    ((ordered_spec notBehind_antisymm notBehind_trans notBehind_total _).2 directory).1 h
  obtain ⟨c, hc, rfl⟩ := List.mem_map.1 hneeded
  obtain ⟨f, hf, hchild⟩ := List.mem_flatMap.1 hc
  obtain ⟨n, hn, hdirectory⟩ := directory_of_children hchild
  rw [List.length_append, List.length_singleton] at hn
  refine ⟨f, hf, ?_⟩
  rw [hdirectory, List.nil_append, List.take_append_of_le_length (Nat.lt_succ_iff.1 hn)]
  exact List.take_prefix _ _

/-! ## 3. Paths -/

theorem IsModule.isStem {name : String} (h : IsModule name) : IsStem name := by
  refine ⟨h.1, ?_, h.2.1⟩
  rintro rfl
  exact h.2.2 (by simp)

theorem isStem_mod : IsStem "mod" := by
  unfold IsStem
  decide

/-- Directories of modules show all their modules. -/
theorem names_directory (root : Path) {modules : List String} (h : ∀ m ∈ modules, IsModule m) :
    (modules.foldl (· / ·) root).names = root.names ++ modules := by
  induction modules generalizing root with
  | nil => exact (List.append_nil _).symm
  | cons m modules ih =>
    obtain ⟨hm, hrest⟩ := List.forall_mem_cons.1 h
    have hfile := root.names_file hm.isStem ""
    simp only [String.append_empty] at hfile
    rw [List.foldl_cons, ih _ hrest, hfile, List.append_assoc]
    simp [extensionHead, extensionNames, extensionPieces, Text.split]

theorem same_indexPath_iff {root : Path} {extension : String} {modules modules' : List String}
    (h : ∀ m ∈ modules, IsModule m) (h' : ∀ m ∈ modules', IsModule m) :
    (indexPath root extension modules).same (indexPath root extension modules') = true ↔
      modules = modules' := by
  constructor
  · intro hsame
    have hnames := Path.names_of_same hsame
    rw [indexPath, Path.names_file _ isStem_mod, names_directory root h, indexPath,
      Path.names_file _ isStem_mod, names_directory root h'] at hnames
    exact List.append_cancel_left (List.append_inj' hnames rfl).1
  · rintro rfl
    exact decide_eq_true rfl

theorem same_sourcePath_iff {root : Path} {extension : String} {f f' : SchemaFile}
    (h : ∀ m ∈ packageModules f, IsModule m) (h' : ∀ m ∈ packageModules f', IsModule m)
    (hfile : IsModule (fileModule f)) (hfile' : IsModule (fileModule f')) :
    (sourcePath root extension f).same (sourcePath root extension f') = true ↔
      packageModules f = packageModules f' ∧ fileModule f = fileModule f' := by
  rw [sourcePath, sourcePath, Path.same_file_iff hfile.isStem hfile'.isStem]
  refine and_congr_left fun _ => ⟨fun hsame => ?_, fun heq => ?_⟩
  · have hnames := Path.names_of_same hsame
    rw [directory, names_directory root h, directory, names_directory root h'] at hnames
    exact List.append_cancel_left hnames
  · rw [directory, heq]
    exact decide_eq_true rfl

/-- Where the module of a file has no name, its source is called by the extension alone. -/
theorem names_extension (extension : String) :
    (Path.mk extension).names =
      [extensionHead extension].filter (fun head => head ≠ "" ∧ head ≠ ".") ++
        extensionNames extension := by
  cases hsplit : Text.split '/' extension.toList with
  | nil => exact absurd hsplit (split_ne_nil '/' _)
  | cons head rest =>
    have hhead : extensionHead extension = String.ofList head := by
      rw [extensionHead, hsplit, List.headD_cons]
    rw [Path.names, Path.pieces, Text.words, hsplit, extensionNames, extensionPieces, hsplit,
      List.tail_cons, hhead]
    cases head with
    | nil => rfl
    | cons c cs =>
      have hne : String.ofList (c :: cs) ≠ "" := by simp
      rw [List.filter_cons_of_pos (by simp), List.map_cons]
      generalize String.ofList (c :: cs) = name at hne
      by_cases hdot : name = "."
      · simp [hdot]
      · simp [hdot, hne]

theorem extensionHead_of_absolute {extension : String}
    (h : (Path.mk extension).isAbsolute = true) : extensionHead extension = "" := by
  obtain ⟨cs, hcs⟩ := List.head?_eq_some_iff.1 (of_decide_eq_true h)
  rw [extensionHead, hcs, Text.split, if_pos rfl, List.headD_cons, String.ofList_nil]

/-- A directory of modules is not called like an index without a real extension. -/
theorem not_mem_packageModules {f : SchemaFile} (h : ∀ m ∈ packageModules f, IsModule m)
    {head : String} (hhead : ¬ (head ≠ "" ∧ head ≠ ".")) : "mod" ++ head ∉ packageModules f := by
  intro hmem
  by_cases hempty : head = ""
  · obtain ⟨word, -, hword⟩ := List.mem_map.1 hmem
    rw [hempty, String.append_empty] at hword
    exact moduleName_ne_mod word hword
  · have hdot : head = "." := by
      simpa [hempty] using hhead
    rw [hdot] at hmem
    exact (h _ hmem).2.2 (by simp)

section Index

variable {root : Path} {extension : String} {f : SchemaFile} {modules : List String}
  (hpackage : ∀ m ∈ packageModules f, IsModule m) (hmodules : ∀ m ∈ modules, IsModule m)

include hpackage hmodules

/-- The source of the schema root, where that is a file: its module has no name. -/
theorem names_nameless_ne :
    (directory root f / extension).names ≠ (indexPath root extension modules).names := by
  intro hnames
  rw [indexPath, Path.names_file _ isStem_mod, names_directory root hmodules] at hnames
  change ((directory root f).join ⟨extension⟩).names = _ at hnames
  cases habs : (Path.mk extension).isAbsolute with
  | true =>
    -- The source does not lie below the output root, and its path is too short.
    rw [Path.join, if_pos habs, names_extension, extensionHead_of_absolute habs] at hnames
    have hlength := congrArg List.length hnames
    simp at hlength
    omega
  | false =>
    rw [Path.names_join _ habs, names_extension extension, directory,
      names_directory root hpackage] at hnames
    by_cases hhead : extensionHead extension ≠ "" ∧ extensionHead extension ≠ "."
    · rw [List.filter_cons_of_pos (by simpa using hhead), List.filter_nil, List.singleton_append]
        at hnames
      have hlast := (List.cons.inj (List.append_inj' hnames (by simp)).2).1
      have hlength := congrArg (·.toList.length) hlast
      simp at hlength
      omega
    · -- Then the directory of the source would be called like the index.
      rw [List.filter_cons_of_neg (by simpa using hhead), List.filter_nil, List.nil_append,
        ← List.singleton_append, ← List.append_assoc] at hnames
      have hdirectory := List.append_cancel_right hnames
      rw [List.append_assoc] at hdirectory
      refine not_mem_packageModules hpackage hhead ?_
      rw [List.append_cancel_left hdirectory]
      exact List.mem_append_right _ List.mem_cons_self

/-- The source of a file is no index. -/
theorem not_same_indexPath (hfile : IsModule (fileModule f) ∨ fileModule f = "") :
    (sourcePath root extension f).same (indexPath root extension modules) = false := by
  refine Bool.eq_false_iff.2 fun hsame => ?_
  have hnames := Path.names_of_same hsame
  rcases hfile with hfile | hfile
  · rw [sourcePath, Path.names_file _ hfile.isStem, indexPath, Path.names_file _ isStem_mod]
      at hnames
    have hlast := (List.cons.inj (List.append_inj' hnames (by simp)).2).1
    exact moduleName_ne_mod _ ((String.append_left_inj _).1 hlast)
  · rw [sourcePath, hfile, String.empty_append] at hnames
    exact names_nameless_ne hpackage hmodules hnames

end Index

end SchemaGen.Rust
