import SchemaGen.Proofs.MissingFiles

/-!
# What lies above a file

Before a file is opened, all that is missing above it is made. The path above a file is the path of
its directory without the slashes and dots at its end. They mean nothing, so if the directory is
there, nothing has to be made. And it is there if a file in it or below it is.

Results:
1. `Path.parent?_join`: the path above a file.
2. `FileSystem.isDirectory_trimmed`: slashes and dots at the end of a path.
3. `FileSystem.hasAbove_of_reaches`: what lies above a file, if another one lies below it.
-/

namespace SchemaGen

/-! ## 1. The path above a file -/

namespace Path

/-- The path without the slashes and dots at its end that mean nothing. -/
def trimmed (p : Path) : Path :=
  ⟨String.ofList (trimBack p.text.toList.reverse).reverse⟩

variable {name : String} (hname : IsPlainName name)

include hname

theorem trimBack_name (cs : List Char) :
    trimBack (name.toList.reverse ++ cs) = name.toList.reverse ++ cs := by
  have hne : name.toList.reverse ≠ [] := by simpa using hname.1
  have hslash : '/' ∉ name.toList.reverse := by simpa using hname.2.2.2
  obtain ⟨c, rest, hlist⟩ := List.exists_cons_of_ne_nil hne
  rw [hlist] at hslash ⊢
  rw [List.cons_append, trimBack, if_neg]
  rintro (⟨rfl, -⟩ | ⟨rfl, hhead⟩)
  · exact hslash List.mem_cons_self
  · cases rest with
    | nil =>
      refine hname.2.1 (String.toList_inj.1 ?_)
      rw [← List.reverse_inj, hlist]
      rfl
    | cons d rest =>
      obtain rfl := Option.some.inj hhead
      exact hslash (List.mem_cons_of_mem _ List.mem_cons_self)

theorem parent?_of_text {p : Path} {front : List Char}
    (htext : p.text.toList = front ++ name.toList)
    (hfront : ∀ c, front.getLast? = some c → c = '/') :
    p.parent? = some ⟨String.ofList (trimBack front.reverse).reverse⟩ := by
  have hne : name.toList.reverse ≠ [] := by simpa using hname.1
  have hslash : ∀ c ∈ name.toList.reverse, c ≠ '/' := by
    rintro c hc rfl
    exact hname.2.2.2 (List.mem_reverse.1 hc)
  have hdrop : (name.toList.reverse ++ front.reverse).dropWhile (· ≠ '/') = front.reverse := by
    rw [List.dropWhile_append_of_pos fun c hc => decide_eq_true (hslash c hc)]
    rw [← List.head?_reverse] at hfront
    cases hlist : front.reverse with
    | nil => rfl
    | cons c cs =>
      rw [hlist] at hfront
      simp [hfront c rfl]
  obtain ⟨c, cs, hlist⟩ := List.exists_cons_of_ne_nil hne
  have hc : c ≠ '/' := hslash c (hlist ▸ List.mem_cons_self)
  unfold parent?
  rw [htext, List.reverse_append, trimBack_name hname]
  split
  · next hnil => simp [hlist] at hnil
  · next hroot => simp [hlist, hc] at hroot
  · rw [hdrop]

/-- The path above a file in a directory does not depend on the name of the file. -/
theorem parent?_join (dir : Path) : (dir / name).parent? = some dir.trimmed := by
  show (dir.join ⟨name⟩).parent? = _
  rw [join, if_neg (by simp [ResolutionLemmas.isAbsolute_name hname])]
  by_cases hends : dir.text.isEmpty || dir.endsWithSlash
  · rw [if_pos hends]
    refine parent?_of_text hname (String.toList_append ..) fun c hc => ?_
    rcases Bool.or_eq_true_iff.1 hends with hempty | hslash
    · have htext : dir.text = "" := by simpa using hempty
      simp [htext] at hc
    · exact Option.some.inj (hc.symm.trans (of_decide_eq_true hslash))
  · rw [if_neg hends]
    have hne : dir.text.toList.reverse ≠ [] := by
      intro hnil
      have htext : dir.text = "" := by simpa using hnil
      simp [htext] at hends
    have htext : (dir.text ++ "/" ++ name).toList = (dir.text.toList ++ ['/']) ++ name.toList := by
      simp
    rw [parent?_of_text hname htext (by simp), List.reverse_append, List.reverse_singleton,
      List.singleton_append, trimBack, if_pos (.inl ⟨rfl, hne⟩), trimmed]

end Path

/-! ## 2. Slashes and dots at the end -/

namespace FileSystem

variable {fs : FileSystem} {p : Path} {text : String} {l : Location}

/-- A path that takes only part of the steps to a directory leads to a directory. -/
theorem isDirectory_of_steps {q : Path} (habs : q.isAbsolute = p.isAbsolute)
    (hrequest : IsRequest .reach p → IsRequest .reach q) {rest : List String}
    (hsteps : p.steps = q.pieces ++ rest) (h : fs.isDirectory p = true) :
    fs.isDirectory q = true := by
  obtain ⟨l, hl, hdir⟩ := isDirectory_iff.1 h
  obtain ⟨hp, hstart, n, hn, hleads⟩ := reaches_iff.1 hl
  have hstartOf : fs.startOf q = fs.startOf p := by rw [startOf, startOf, habs]
  rw [← hstartOf] at hstart hleads
  obtain ⟨n₁, n₂, m, hsum, hfirst, hrest⟩ := hleads.split hsteps
  have hm : fs.HasDirectory m := by
    cases rest with
    | nil =>
      cases hrest
      exact hdir
    | cons step steps => exact hrest.inside (List.cons_ne_nil _ _)
  refine isDirectory_iff.2 ⟨m, reaches_iff.2 ⟨hrequest hp, hstart, n₁, by omega, ?_⟩, hm⟩
  unfold Path.steps
  split
  · exact hfirst.slash hm
  · exact hfirst

theorem isRequest_of_append {more : String} (hne : text ≠ "")
    (h : IsRequest .reach ⟨text ++ more⟩) : IsRequest .reach ⟨text⟩ := by
  refine ⟨hne, fun hnull => h.noNull ?_, fun hpurpose => Nat.lt_of_le_of_lt ?_ (h.short hpurpose)⟩
  · simp [hnull]
  · simp [Path.size, String.utf8ByteSize_append]

theorem isAbsolute_append {more : String} (hne : text ≠ "") :
    (Path.mk (text ++ more)).isAbsolute = (Path.mk text).isAbsolute := by
  have hlist : text.toList ≠ [] := by simpa using hne
  rw [Path.isAbsolute, Path.isAbsolute, String.toList_append, List.head?_append_of_ne_nil _ hlist]

theorem isDirectory_of_slash (hne : text ≠ "") (h : fs.isDirectory ⟨text ++ "/"⟩ = true) :
    fs.isDirectory ⟨text⟩ = true := by
  have hpieces : (Path.mk (text ++ "/")).pieces = (Path.mk text).pieces := by
    have hlist : (text ++ "/").toList = text.toList ++ '/' :: [] := by simp
    rw [Path.pieces, OutputPathsLemmas.words_append_sep '/' hlist, String.ofList_toList]
    exact List.append_nil _
  obtain ⟨rest, hsteps⟩ :
      ∃ rest, (Path.mk (text ++ "/")).steps = (Path.mk text).pieces ++ rest := by
    unfold Path.steps
    rw [hpieces]
    split
    · exact ⟨_, rfl⟩
    · exact ⟨[], (List.append_nil _).symm⟩
  exact isDirectory_of_steps (isAbsolute_append hne).symm (isRequest_of_append hne) hsteps h

theorem isDirectory_of_dot (h : fs.isDirectory ⟨text ++ "/" ++ "."⟩ = true) :
    fs.isDirectory ⟨text ++ "/"⟩ = true := by
  have hne : text ++ "/" ≠ "" := by simp
  have hpieces {more : String} : (Path.mk (text ++ "/" ++ more)).pieces =
      (Path.mk text).pieces ++ (Path.mk more).pieces := by
    have hlist : (text ++ "/" ++ more).toList = text.toList ++ '/' :: more.toList := by simp
    rw [Path.pieces, OutputPathsLemmas.words_append_sep '/' hlist, String.ofList_toList,
      String.ofList_toList]
    rfl
  have hslash : (Path.mk (text ++ "/" ++ ".")).endsWithSlash = false := by
    simp [Path.endsWithSlash]
  have hself : (Path.mk (text ++ "/")).pieces = (Path.mk text).pieces := by
    have hempty : (Path.mk (text ++ "/" ++ "")).pieces = (Path.mk text).pieces ++ [] := hpieces
    rwa [String.append_empty, List.append_nil] at hempty
  have hsteps : (Path.mk (text ++ "/" ++ ".")).steps = (Path.mk (text ++ "/")).pieces ++ ["."] := by
    rw [Path.steps, if_neg (by simp [hslash]), hpieces, hself]
    rfl
  exact isDirectory_of_steps (isAbsolute_append hne).symm (isRequest_of_append hne) hsteps h

theorem isDirectory_trimBack (cs : List Char)
    (h : fs.isDirectory ⟨String.ofList cs.reverse⟩ = true) :
    fs.isDirectory ⟨String.ofList (Path.trimBack cs).reverse⟩ = true := by
  induction cs with
  | nil => exact h
  | cons c cs ih =>
    rw [Path.trimBack]
    split
    · next hmeans =>
      refine ih ?_
      rw [List.reverse_cons, String.ofList_append] at h
      rcases hmeans with ⟨rfl, hne⟩ | ⟨rfl, hhead⟩
      · exact isDirectory_of_slash (by simpa using hne) h
      · obtain ⟨rest, rfl⟩ := List.head?_eq_some_iff.1 hhead
        rw [List.reverse_cons, String.ofList_append] at h ⊢
        exact isDirectory_of_dot h
    · exact h

/-- Slashes and dots at the end of a path mean nothing. -/
theorem isDirectory_trimmed (h : fs.isDirectory p = true) : fs.isDirectory p.trimmed = true := by
  refine isDirectory_trimBack _ ?_
  rw [List.reverse_reverse, String.ofList_toList]
  exact h

/-! ## 3. Files that are there -/

/-- The directory that a file or another directory is asked for in is there. -/
theorem Reaches.isDirectory_parent {name : String} (hname : IsPlainName name)
    (h : fs.Reaches .reach (p / name) (p / name).steps l) :
    p.text = "" ∨ fs.isDirectory p = true := by
  refine Classical.or_iff_not_imp_left.2 fun hne => ?_
  obtain ⟨d, -, hd, hdir, -⟩ := h.parent hne hname
  exact isDirectory_iff.2 ⟨d, hd, hdir⟩

theorem Reaches.isDirectory_above {names : List String} (hnames : ∀ name ∈ names, IsPlainName name)
    {file : String} (hfile : IsPlainName file)
    (h : fs.Reaches .reach (names.foldl (· / ·) p / file) (names.foldl (· / ·) p / file).steps l) :
    p.text = "" ∨ fs.isDirectory p = true := by
  induction names generalizing p with
  | nil => exact h.isDirectory_parent hfile
  | cons name rest ih =>
    have hname := hnames name List.mem_cons_self
    rcases ih (fun m hm => hnames m (List.mem_cons_of_mem _ hm)) h with hempty | hdir
    · rcases ResolutionLemmas.text_join hname p with htext | htext <;>
        rw [htext, String.append_eq_empty_iff] at hempty <;> exact absurd hempty.2 hname.1
    · obtain ⟨m, hm, -⟩ := isDirectory_iff.1 hdir
      exact hm.isDirectory_parent hname

/-- If there is a file below a directory, nothing has to be made above files in the directory. -/
theorem hasAbove_of_reaches {names : List String} (hnames : ∀ name ∈ names, IsPlainName name)
    {file other : String} (hfile : IsPlainName file) (hother : IsPlainName other)
    (h : fs.Reaches .reach (names.foldl (· / ·) p / file) (names.foldl (· / ·) p / file).steps l) :
    fs.HasAbove (p / other) := by
  intro parent hparent
  rw [Path.parent?_join hother] at hparent
  obtain rfl := Option.some.inj hparent
  rcases h.isDirectory_above hnames hfile with hempty | hdir
  · refine .inl ?_
    rw [Path.trimmed, hempty]
    rfl
  · exact .inr (isDirectory_trimmed hdir)

end FileSystem

end SchemaGen
