import SchemaGen.Proofs.GeneratedRuns
import Mathlib.Data.Prod.Basic

/-!
# The tree of modules

A source of Rust is part of a crate only if modules lead to it: the index of each directory has to
declare what lies in the directory. The indexes of a run are put together from notes that were taken
file by file, and references name messages by modules that are worked out a third time. The three
agree, so that whoever follows the declared modules of a reference finds the struct there.

Results:
1. `Workspace.Writes.read`: what files below an empty directory hold.
2. `Rust.declares_indexes`: the modules that indexes declare.
3. `Rust.resolves_of_grown`: where a reference to a message leads.
4. `Rust.modules_complete`: the tree of modules of a run. `Rust.declarations_unsorted` shows that
   declarations in an index are in the order of the names, not of the lines.
-/

namespace SchemaGen

/-! ## Definitions -/

namespace Rust

/-- The index of a directory declares a module. -/
def Declares (listing : List (List String × List String)) (directory : List String)
    (name : String) : Prop :=
  ∃ names, (directory, names) ∈ listing ∧ name ∈ names

/-- Each of the modules is declared in the directory of those before it. -/
def LeadsThrough (listing : List (List String × List String)) (modules : List String) : Prop :=
  ∀ directory name, directory ++ [name] <+: modules → Declares listing directory name

/-- All modules that a file lies in, and its own. -/
def modulesOf (f : SchemaFile) : List String :=
  packageModules f ++ [fileModule f]

/-- The names on the way from the crate root to the struct for a message. -/
def structPath (f : SchemaFile) (m : Message) : List String :=
  "crate" :: modulesOf f ++ [typeName m.name]

/-- The line that opens the struct for a message. -/
def structLine (m : Message) : String :=
  s!"pub struct {typeName m.name} \x7b"

/-- The type of a field in the source of `f` names each message that something is generated for by a
path of declared modules, which leads to the source with its struct. -/
def Resolves (o : Output) (g : Graph) (files : List SchemaFile)
    (listing : List (List String × List String)) (f : SchemaFile) (x : Field) : Prop :=
  ∃ r, vocabulary.fieldType g x = .ok r ∧ fieldLines x r ⊆ (sourceOf o g f).lines ∧
    ∀ reference ∈ x.type.references, ∀ m,
      g.definition? reference.2 = some (.message m) → m.isSkipped = false →
      ∃ f' ∈ files, (∃ before after,
          r.type = before ++ "::".intercalate (structPath f' m) ++ after) ∧
        LeadsThrough listing (modulesOf f') ∧ structLine m ∈ (sourceOf o g f').lines

/-- What was written are the sources of `files` and the indexes `listing`, and they make up a tree
of modules. -/
structure IsModuleTree (o : Output) (fs : FileSystem) (written : List Path) (g : Graph)
    (files : List SchemaFile) (listing : List (List String × List String)) : Prop where
  paths : written = files.map (sourcePath o.root o.extension) ++
    listing.map fun i => indexPath o.root o.extension i.1
  plain : ∀ p ∈ written, ∃ names, names ≠ [] ∧ (∀ name ∈ names, IsPlainName name) ∧
    p = names.foldl (· / ·) o.root
  source : ∀ f ∈ files,
    fs.read (sourcePath o.root o.extension f) = .ok (Output.bytes (sourceOf o g f).lines)
  index : ∀ i ∈ listing, fs.read (indexPath o.root o.extension i.1) =
    .ok (Output.bytes (indexLines o.tool i.2))
  apart : ∀ f ∈ files, ∀ i ∈ listing,
    (sourcePath o.root o.extension f).same (indexPath o.root o.extension i.1) = false
  once : (listing.map (·.1)).Nodup
  increasing : ∀ i ∈ listing, i.2.Pairwise (· < ·)
  declared : ∀ f ∈ files, LeadsThrough listing (modulesOf f)
  backed : ∀ directory name, Declares listing directory name →
    (∃ f ∈ files, packageModules f = directory ∧ fileModule f = name) ∨
      ∃ names, (directory ++ [name], names) ∈ listing
  resolves : ∀ f ∈ files, ∀ m ∈ f.messages, m.isSkipped = false → ∀ x ∈ m.kept,
    Resolves o g files listing f x

end Rust

/-! ## 1. Files below an empty directory -/

namespace FileSystem

/-- Where a path ends with a slash or with dots, there is a directory. -/
theorem Leads.hasDirectory {fs : FileSystem} {n : Nat} {here l : Location} {steps : List String}
    {last : String} (h : fs.Leads .reach n here (steps ++ [last]) l)
    (hlast : last = "" ∨ last = "." ∨ last = "..") : fs.HasDirectory l := by
  obtain ⟨n₁, n₂, m, -, -, hm⟩ := h.split rfl
  cases hm with
  | stay inside _ onward =>
    cases onward
    exact inside
  | up inside onward =>
    cases onward
    cases m using List.reverseRecOn with
    | nil => exact inside
    | append_singleton front name =>
      rw [List.dropLast_concat]
      obtain ⟨access, names, hshape⟩ := inside
      exact exists_directory_above hshape (by simp)
  | enter _ asked => simp [asked.named] at hlast
  | jump _ asked => simp [asked.named] at hlast
  | named _ asked => simp [asked.named] at hlast

end FileSystem

namespace ModuleTreeLemmas

open FileSystem

variable {p : Path}

theorem isAbsolute_of_pieces (hne : p.text ≠ "") (h : p.pieces = []) : p.isAbsolute = true := by
  unfold Path.isAbsolute
  cases htext : p.text.toList with
  | nil => exact absurd (by simpa using htext) hne
  | cons c cs =>
    by_cases hc : c = '/'
    · simp [hc]
    · -- The first piece starts with this character.
      rw [Path.pieces, Text.words, htext, Text.split, if_neg hc] at h
      cases hsplit : Text.split '/' cs with
      | nil => exact absurd hsplit (OutputPathsLemmas.split_ne_nil '/' cs)
      | cons piece pieces => simp [hsplit] at h

/-- A path with an empty name or dots behind it ends with a step that stays in a directory or goes
up. -/
theorem steps_of_dots {name : String} (hne : (p / name).text ≠ "")
    (hname : name = "" ∨ name = "." ∨ name = "..") :
    ((p / name).pieces = [] ∧ (p / name).steps = []) ∨
      ∃ front last, (p / name).steps = front ++ [last] ∧
        (last = "" ∨ last = "." ∨ last = "..") := by
  unfold Path.steps
  split
  · exact .inr ⟨_, "", rfl, .inl rfl⟩
  · next hslash =>
    rcases hname with rfl | hdots
    · have hends : (p / "").endsWithSlash = true := by
        change (p.join ⟨""⟩).text ≠ "" at hne
        change (p.join ⟨""⟩).endsWithSlash = true
        unfold Path.join at hne ⊢
        rw [if_neg (by decide)] at hne ⊢
        split at hne
        · next hjoin =>
          rw [if_pos hjoin]
          have htext : p.text ≠ "" := by simpa using hne
          simpa [Path.endsWithSlash, htext] using hjoin
        · next hjoin =>
          rw [if_neg hjoin]
          simp [Path.endsWithSlash]
      have hpieces : (p / "").pieces = [] := by
        by_contra hsome
        exact hslash ⟨hsome, hends⟩
      exact .inl ⟨hpieces, hpieces⟩
    · have hrelative : (Path.mk name).isAbsolute = false := by
        rcases hdots with rfl | rfl <;> decide
      have hpieces : (Path.mk name).pieces = [name] := by
        rcases hdots with rfl | rfl <;> decide
      refine .inr ⟨p.pieces, name, ?_, .inr hdots⟩
      rw [← hpieces]
      exact Path.pieces_join p hrelative

end ModuleTreeLemmas

open ModuleTreeLemmas

/-- The name of a file is plain. -/
theorem FileSystem.Reaches.plain {fs : FileSystem} (hroot : fs.HasDirectory []) {p : Path}
    {name : String} (hslash : '/' ∉ name.toList) {l : Location}
    (h : fs.Reaches .reach (p / name) (p / name).steps l) (hfile : (fs.contents? l).isSome) :
    IsPlainName name := by
  have hnone : ¬ fs.HasDirectory l := by
    rintro ⟨access, names, hshape⟩
    simp [contents?, hshape] at hfile
  by_contra hplain
  have hname : name = "" ∨ name = "." ∨ name = ".." := by
    by_contra hnot
    rw [not_or, not_or] at hnot
    exact hplain ⟨hnot.1, hnot.2.1, hnot.2.2, hslash⟩
  obtain ⟨hrequest, -, n, -, hleads⟩ := reaches_iff.1 h
  rcases steps_of_dots hrequest.notEmpty hname with ⟨hpieces, hsteps⟩ | ⟨front, last, hsteps, hlast⟩
  · rw [hsteps, startOf, if_pos (isAbsolute_of_pieces hrequest.notEmpty hpieces)] at hleads
    cases hleads
    exact hnone hroot
  · rw [hsteps] at hleads
    exact hnone (hleads.hasDirectory hlast)

namespace Workspace

variable {σ : Type} {w now : Workspace σ} {files : List GeneratedFile}

theorem Writes.plain (h : w.Writes files now) (hroot : w.files.HasDirectory [])
    {file : GeneratedFile} (hfile : file ∈ files) {dir : Path} {name : String}
    (hslash : '/' ∉ name.toList) (hpath : file.path = dir / name) : IsPlainName name := by
  obtain ⟨placed, rfl, hwrote⟩ := h
  obtain ⟨p, hp, rfl⟩ := List.mem_map.1 hfile
  have hreaches := hwrote.reaches hroot p hp
  rw [hpath] at hreaches
  refine hreaches.plain (hroot.grows (hwrote.changes.grows hroot)) hslash ?_
  cases hlast : GeneratedFile.lastAt p.2 placed with
  | none => exact absurd (List.mem_map.2 ⟨p, hp, rfl⟩) (GeneratedFile.lastAt_eq_none_iff.1 hlast)
  | some lines =>
    rw [hwrote.contents p.2 lines hlast]
    rfl

end Workspace

namespace FileSystem

variable {fs : FileSystem} {root : Path} {access : Access}

theorem hasDirectory_root {entries : List (String × Node)}
    (h : fs.find root = .ok (.directory access entries)) : fs.HasDirectory [] := by
  obtain ⟨o, -, hnode⟩ := find_eq_ok_iff.1 h
  cases o with
  | nil => exact ⟨_, _, shape?_of_node? hnode⟩
  | cons name rest =>
    exact exists_directory_above (l := []) (shape?_of_node? hnode) (List.cons_ne_nil name rest)

/-- Nothing that comes to lie below an empty directory is reached through a link. -/
theorem Reaches.below_empty {fs' : FileSystem} (hgrows : fs.Grows fs')
    (hempty : fs.find root = .ok (.directory access [])) :
    ∃ o, ∀ {names : List String}, (∀ name ∈ names, IsPlainName name) → ∀ {l},
      fs'.Reaches .reach (names.foldl (· / ·) root) (names.foldl (· / ·) root).steps l →
      l = o ++ names := by
  obtain ⟨o, hreaches, hnode⟩ := find_eq_ok_iff.1 hempty
  have hlinks : ∀ k, k ≠ [] → ¬ fs'.HasLink (o ++ k) := by
    intro k hk
    rw [hgrows.sameLinks.hasLink_iff]
    rintro ⟨target, hshape⟩
    obtain ⟨name, rest, rfl⟩ := List.exists_cons_of_ne_nil hk
    have hleaf : (Node.directory access []).IsLeaf := fun _ => rfl
    rw [shape?, node?, FileTreeLemmas.at?_append, show Node.at? o fs.root = _ from hnode,
      Option.bind_some, FileTreeLemmas.at?_cons_of_isLeaf hleaf] at hshape
    cases hshape
  exact ⟨o, fun hnames _ h => (hreaches.grows hgrows).below hlinks hnames h⟩

end FileSystem

/-- What was written to files below an empty directory can be read there, if no path was used
twice. -/
theorem Workspace.Writes.read {σ : Type} {w now : Workspace σ} {files : List GeneratedFile}
    (h : w.Writes files now) {root : Path} {access : Access}
    (hempty : w.files.find root = .ok (.directory access []))
    (hbelow : ∀ file ∈ files, ∃ names : List String, (∀ name ∈ names, IsPlainName name) ∧
      file.path = names.foldl (· / ·) root)
    (hdistinct : Path.Distinct (files.map (·.path))) :
    ∀ file ∈ files, now.files.read file.path = .ok (Output.bytes file.lines) := by
  obtain ⟨placed, rfl, hwrote⟩ := h
  have hroot := FileSystem.hasDirectory_root hempty
  obtain ⟨o, hplaces⟩ := FileSystem.Reaches.below_empty (hwrote.changes.grows hroot) hempty
  have hplace : ∀ p ∈ placed, ∃ names : List String,
      p.2 = o ++ names ∧ p.1.path = names.foldl (· / ·) root := by
    intro p hp
    obtain ⟨names, hnames, hpath⟩ := hbelow p.1 (List.mem_map.2 ⟨p, hp, rfl⟩)
    have hreaches := hwrote.reaches hroot p hp
    rw [hpath] at hreaches
    exact ⟨names, hplaces hnames hreaches, hpath⟩
  have hnodup : (placed.map (·.2)).Nodup := by
    unfold Path.Distinct at hdistinct
    rw [List.map_map, List.pairwise_map] at hdistinct
    refine List.pairwise_map.2 (hdistinct.imp_of_mem fun {p q} hp hq hsame heq => ?_)
    obtain ⟨names, hat, hpath⟩ := hplace p hp
    obtain ⟨names', hat', hpath'⟩ := hplace q hq
    obtain rfl := List.append_cancel_left (hat.symm.trans (heq.trans hat'))
    simp [hpath, hpath', Path.same] at hsame
  intro file hfile
  obtain ⟨p, hp, rfl⟩ := List.mem_map.1 hfile
  exact FileSystem.read_eq_ok_iff.2
    ⟨p.2, hwrote.reaches hroot p hp, hwrote.contents p.2 _ (GeneratedFile.lastAt_of_mem hnodup hp)⟩

/-! ## 2. Indexes -/

namespace Rust

open ModuleFilesLemmas

variable {names : List String} {name : String} {files : List SchemaFile}

theorem mem_children {directory : List String} {c : Child} :
    c ∈ children directory names ↔
      ∃ front, c.directory = directory ++ front ∧ front ++ [c.name] <+: names := by
  induction names generalizing directory with
  | nil =>
    refine ⟨nofun, ?_⟩
    rintro ⟨front, -, hfront⟩
    simp at hfront
  | cons name names ih =>
    rw [children, List.mem_cons, ih]
    constructor
    · rintro (rfl | ⟨front, hdirectory, hfront⟩)
      · exact ⟨[], by simp, by simp⟩
      · exact ⟨name :: front, by simp [hdirectory], by simpa using hfront⟩
    · rintro ⟨front, hdirectory, hfront⟩
      cases front with
      | nil =>
        obtain ⟨rfl, -⟩ := List.cons_prefix_cons.1 hfront
        refine .inl ?_
        rw [List.append_nil] at hdirectory
        rw [← hdirectory]
      | cons first front =>
        obtain ⟨rfl, hrest⟩ := List.cons_prefix_cons.1 hfront
        exact .inr ⟨front, by simp [hdirectory], hrest⟩

theorem mem_childrenOf {f : SchemaFile} {directory : List String} :
    ⟨directory, name⟩ ∈ childrenOf f ↔ directory ++ [name] <+: modulesOf f := by
  rw [childrenOf, mem_children]
  constructor
  · rintro ⟨front, rfl, hfront⟩
    exact hfront
  · exact fun h => ⟨directory, rfl, h⟩

theorem ordered_names (names : List String) :
    (ordered (fun a b => decide (a ≤ b)) names).Pairwise (· < ·) ∧
      ∀ name, name ∈ ordered (fun a b => decide (a ≤ b)) names ↔ name ∈ names := by
  have hantisymm {a b : String} (hab : decide (a ≤ b) = true) (hba : decide (b ≤ a) = true) :
      a = b :=
    String.le_antisymm (of_decide_eq_true hab) (of_decide_eq_true hba)
  have htrans (a b c : String) (hab : decide (a ≤ b) = true) (hbc : decide (b ≤ c) = true) :
      decide (a ≤ c) = true :=
    decide_eq_true (String.le_trans (of_decide_eq_true hab) (of_decide_eq_true hbc))
  have htotal (a b : String) : (decide (a ≤ b) || decide (b ≤ a)) = true := by
    simpa using String.le_total a b
  obtain ⟨honce, hmem⟩ := ordered_spec hantisymm htrans htotal names
  refine ⟨honce.imp fun {a b} h => ?_, hmem⟩
  by_contra hnot
  exact h.2 (hantisymm h.1 (decide_eq_true (String.not_lt.1 hnot)))

theorem mem_indexes {cs : List Child} {directory : List String}
    (h : (directory, names) ∈ indexes cs) :
    names = ordered (fun a b => decide (a ≤ b))
      ((cs.filter (·.directory = directory)).map (·.name)) := by
  obtain ⟨_, -, heq⟩ := List.mem_map.1 h
  cases heq
  rfl

/-- Indexes declare just the modules that were noted down, in the order of their names. -/
theorem declares_indexes (cs : List Child) :
    (∀ i ∈ indexes cs, i.2.Pairwise (· < ·)) ∧
      ∀ directory name, Declares (indexes cs) directory name ↔ ⟨directory, name⟩ ∈ cs := by
  have hdirectories :=
    (ordered_spec notBehind_antisymm notBehind_trans notBehind_total (cs.map (·.directory))).2
  constructor
  · rintro ⟨directory, names⟩ hi
    show names.Pairwise (· < ·)
    rw [mem_indexes hi]
    exact (ordered_names _).1
  · intro directory name
    constructor
    · rintro ⟨names, hindex, hname⟩
      rw [mem_indexes hindex, (ordered_names _).2] at hname
      obtain ⟨c, hc, rfl⟩ := List.mem_map.1 hname
      obtain ⟨hmem, hdirectory⟩ := List.mem_filter.1 hc
      obtain rfl : c.directory = directory := of_decide_eq_true hdirectory
      exact hmem
    · intro hmem
      have hdirectory := (hdirectories directory).2 (List.mem_map.2 ⟨_, hmem, rfl⟩)
      refine ⟨_, List.mem_map.2 ⟨directory, hdirectory, rfl⟩, ((ordered_names _).2 name).2 ?_⟩
      exact List.mem_map.2 ⟨_, List.mem_filter.2 ⟨hmem, decide_eq_true rfl⟩, rfl⟩

theorem declares_neededBy {directory : List String} :
    Declares (indexes (neededBy files)) directory name ↔
      ∃ f ∈ files, directory ++ [name] <+: modulesOf f := by
  rw [(declares_indexes _).2, neededBy, List.mem_flatMap]
  exact exists_congr fun f => and_congr_right fun _ => mem_childrenOf

/-- A declared module is the last one of a file, or there are modules in it. -/
theorem backed_of_declares {directory : List String}
    (h : Declares (indexes (neededBy files)) directory name) :
    (∃ f ∈ files, packageModules f = directory ∧ fileModule f = name) ∨
      ∃ names, (directory ++ [name], names) ∈ indexes (neededBy files) := by
  obtain ⟨f, hf, after, hmodules⟩ := declares_neededBy.1 h
  cases after with
  | nil =>
    rw [List.append_nil, modulesOf] at hmodules
    obtain ⟨hdirectory, hname⟩ := List.append_inj' hmodules (by simp)
    exact .inl ⟨f, hf, hdirectory.symm, (List.head_eq_of_cons_eq hname).symm⟩
  | cons next after =>
    have hbelow : Declares (indexes (neededBy files)) (directory ++ [name]) next :=
      declares_neededBy.2 ⟨f, hf, after, by rw [← hmodules]; simp⟩
    obtain ⟨names, hnames, -⟩ := hbelow
    exact .inr ⟨names, hnames⟩

/-! ## 3. References -/

theorem messageName_eq (f : SchemaFile) (m : Message) :
    vocabulary.messageName f m = "::".intercalate (structPath f m) := by
  rw [structPath, String.intercalate_append_of_ne_nil (by simp) (by simp),
    String.intercalate_singleton]
  rfl

section Mentions

open FillingLemmas

variable {g : Graph} {field : String} {reference : String × DefinitionId} {name : String}
  (htarget : vocabulary.target g reference.2 = .ok (some name))

include htarget

variable {t : FieldType} {r : Rendered}

theorem mentions_of_element {item : String} (h : vocabulary.element g field t = .ok item)
    (hr : reference ∈ t.references) : ∃ before after, item = before ++ name ++ after := by
  cases t with
  | base b => cases hr
  | map key value => cases h
  | reference package short id =>
    obtain rfl := List.mem_singleton.1 hr
    obtain ⟨target, hfound, hitem⟩ := bind_eq_ok.1 h
    obtain rfl := Except.ok.inj (htarget.symm.trans hfound)
    cases hitem
    exact ⟨"", "", by simp [vocabulary]⟩

theorem mentions_of_single (h : vocabulary.single g field t = .ok r)
    (hr : reference ∈ t.references) : ∃ before after, r.type = before ++ name ++ after := by
  cases t with
  | base b => cases hr
  | reference package short id =>
    obtain rfl := List.mem_singleton.1 hr
    obtain ⟨target, hfound, hr⟩ := bind_eq_ok.1 h
    obtain rfl := Except.ok.inj (htarget.symm.trans hfound)
    cases hr
    exact ⟨"Option<Box<", ">>", by simp [vocabulary, toString]⟩
  | map key value =>
    obtain ⟨k, hkey, hrest⟩ := bind_eq_ok.1 h
    obtain ⟨v, hvalue, hmap⟩ := bind_eq_ok.1 hrest
    cases hmap
    rcases List.mem_append.1 hr with hr | hr
    · obtain ⟨before, after, rfl⟩ := mentions_of_element htarget hkey hr
      exact ⟨"Option<std::collections::HashMap<" ++ before, after ++ ", " ++ v ++ ">>",
        by simp [vocabulary, toString, String.append_assoc]⟩
    · obtain ⟨before, after, rfl⟩ := mentions_of_element htarget hvalue hr
      exact ⟨"Option<std::collections::HashMap<" ++ k ++ ", " ++ before, after ++ ">>",
        by simp [vocabulary, toString, String.append_assoc]⟩

/-- The type of a field names the messages that it refers to. -/
theorem mentions_of_fieldType {x : Field} (h : vocabulary.fieldType g x = .ok r)
    (hr : reference ∈ x.type.references) : ∃ before after, r.type = before ++ name ++ after := by
  unfold Vocabulary.fieldType at h
  split at h
  · exact mentions_of_single htarget h hr
  · obtain ⟨item, hitem, hlist⟩ := bind_eq_ok.1 h
    cases hlist
    obtain ⟨before, after, rfl⟩ := mentions_of_element htarget hitem hr
    exact ⟨"Option<Vec<" ++ before, after ++ ">>",
      by simp [vocabulary, toString, String.append_assoc]⟩

end Mentions

section Sources

variable {o : Output} {g : Graph} {f : SchemaFile} {m : Message} (hm : m ∈ f.messages)
  (hkept : m.isSkipped = false)

include hm hkept

theorem structLines_subset : structLines g m ⊆ (sourceOf o g f).lines := by
  intro line hline
  refine List.mem_append_right _ (List.mem_append_left _ (List.mem_flatMap.2 ⟨m, ?_, hline⟩))
  exact List.mem_filter.2 ⟨hm, by simp [hkept]⟩

theorem structLine_mem : structLine m ∈ (sourceOf o g f).lines := by
  refine structLines_subset hm hkept (List.mem_append_left _ (List.mem_append_left _ ?_))
  simp [structStart, structLine]

theorem fieldLines_subset {x : Field} (hx : x ∈ m.kept) {r : Rendered}
    (hr : vocabulary.fieldType g x = .ok r) : fieldLines x r ⊆ (sourceOf o g f).lines := by
  intro line hline
  refine structLines_subset hm hkept (List.mem_append_left _ (List.mem_append_right _ ?_))
  refine List.mem_flatMap.2 ⟨x, hx, ?_⟩
  rw [Vocabulary.rendered, hr]
  exact hline

end Sources

end Rust

variable {seen : List FileSystem} {g : Graph} {m : Message}

/-- The owner of a message is the file that it is found in. -/
theorem Grown.owner_of_message {root : Path} (hg : Grown seen root g) {id : DefinitionId}
    (h : g.definition? id = some (.message m)) :
    ∃ f, g.file? id.file = some f ∧ g.file? m.owner = some f ∧ m ∈ f.messages := by
  obtain ⟨f, hf, hat⟩ := Option.bind_eq_some_iff.1 h
  have hmem : m ∈ f.messages := by
    unfold SchemaFile.definitionAt? at hat
    split at hat
    · obtain ⟨m', hm', heq⟩ := Option.map_eq_some_iff.1 hat
      cases heq
      exact List.mem_of_getElem? hm'
    · obtain ⟨e, -, heq⟩ := Option.map_eq_some_iff.1 hat
      cases heq
  obtain ⟨l, d, -, -, hreflects⟩ := hg.contents hf
  obtain ⟨decl, -, hstands⟩ := ReferencesLemmas.exists_right_of_forall₂ hreflects.messages hmem
  refine ⟨f, hf, ?_, hmem⟩
  rw [hstands.owner, hg.id_eq hf]
  exact hf

/-- The fields of a file name messages by paths that lead to their structs, if the files that the
file depends on are there as well. -/
theorem Rust.resolves_of_grown {root : Path} (hg : Grown seen root g) (o : Output)
    {files : List SchemaFile} {listing : List (List String × List String)}
    (hdeclared : ∀ f ∈ files, LeadsThrough listing (modulesOf f)) {i : FileId} {f : SchemaFile}
    (hi : g.file? i = some f) (hf : f ∈ files)
    (hdependencies : ∀ j ∈ f.dependencies, ∀ e, g.file? j = some e → e ∈ files)
    (hm : m ∈ f.messages) (hkept : m.isSkipped = false) {x : Field} (hx : x ∈ m.kept) :
    Resolves o g files listing f x := by
  obtain ⟨hleads, htypes⟩ := hg.fieldTypes hi hm (List.mem_filter.1 hx).1
  obtain ⟨r, hr⟩ := htypes vocabulary
  refine ⟨r, hr, fieldLines_subset hm hkept hx hr, fun reference href m' hm' hkept' => ?_⟩
  obtain ⟨f', hfile, howner, hmem⟩ := hg.owner_of_message hm'
  have htold : f' ∈ files := by
    rcases (hleads reference href).1 with heq | hdep
    · rw [heq, hi] at hfile
      exact Option.some.inj hfile ▸ hf
    · exact hdependencies _ hdep f' hfile
  have htarget : vocabulary.target g reference.2 =
      .ok (some ("::".intercalate (structPath f' m'))) := by
    simp only [Vocabulary.target, hm', howner, messageName_eq]
  exact ⟨f', htold, mentions_of_fieldType htarget hr href, hdeclared f' htold,
    structLine_mem hmem hkept'⟩

/-! ## 4. Runs -/

namespace Rust

variable {name : String}

theorem IsModule.isPlainName (h : IsModule name) : IsPlainName name := by
  refine ⟨h.1, ?_, ?_, h.2.1⟩
  · rintro rfl
    exact h.2.2 (by simp)
  · rintro rfl
    exact h.2.2 (by simp)

theorem slash_not_mem {o : Output} (hextension : '/' ∉ o.extension.toList)
    (hname : '/' ∉ name.toList) : '/' ∉ (name ++ o.extension).toList := by
  rw [String.toList_append, List.mem_append]
  exact not_or.2 ⟨hname, hextension⟩

theorem slash_not_mem_fileModule (f : SchemaFile) : '/' ∉ (fileModule f).toList := by
  rcases isModule_fileModule f with hmodule | hempty
  · exact hmodule.2.1
  · simp [hempty]

section Tree

variable {o : Output} {g : Graph} {files : List SchemaFile} {w now : Workspace (List Child)}
  {access : Access}

/-- The files that make up the tree. -/
def treeFiles (o : Output) (g : Graph) (files : List SchemaFile) : List GeneratedFile :=
  files.map (sourceOf o g) ++ (indexes (neededBy files)).map (indexOf o)

theorem paths_treeFiles : (treeFiles o g files).map (·.path) =
    files.map (sourcePath o.root o.extension) ++
      (indexes (neededBy files)).map fun i => indexPath o.root o.extension i.1 := by
  rw [treeFiles, List.map_append, List.map_map, List.map_map]
  rfl

variable (hnamed : ∀ f ∈ files, f.Named)

include hnamed

variable {file : GeneratedFile}

/-- Each of the files lies in a directory of modules. -/
theorem directory_of_treeFile (h : file ∈ treeFiles o g files) :
    ∃ (modules : List String) (name : String), (∀ m ∈ modules, IsModule m) ∧ '/' ∉ name.toList ∧
      file.path = modules.foldl (· / ·) o.root / (name ++ o.extension) := by
  rcases List.mem_append.1 h with hsource | hindex
  · obtain ⟨f, hf, rfl⟩ := List.mem_map.1 hsource
    exact ⟨packageModules f, fileModule f, (hnamed f hf).isModule, slash_not_mem_fileModule f, rfl⟩
  · obtain ⟨i, hi, rfl⟩ := List.mem_map.1 hindex
    exact ⟨i.1, "mod", isModule_of_indexed hnamed (List.mem_map.2 ⟨i, hi, rfl⟩), by simp, rfl⟩

/-- All files are written below the root. -/
theorem below_root (hwrites : w.Writes (treeFiles o g files) now) (hroot : w.files.HasDirectory [])
    (hextension : '/' ∉ o.extension.toList) (h : file ∈ treeFiles o g files) :
    ∃ names : List String, names ≠ [] ∧ (∀ name ∈ names, IsPlainName name) ∧
      file.path = names.foldl (· / ·) o.root := by
  obtain ⟨modules, name, hmodules, hname, hpath⟩ := directory_of_treeFile hnamed h
  have hplain := hwrites.plain hroot h (slash_not_mem hextension hname) hpath
  refine ⟨modules ++ [name ++ o.extension], by simp, fun other hother => ?_, by simp [hpath]⟩
  rcases List.mem_append.1 hother with hmem | hmem
  · exact (hmodules other hmem).isPlainName
  · exact List.mem_singleton.1 hmem ▸ hplain

theorem isModuleTree_of_writes (hwrites : w.Writes (treeFiles o g files) now)
    (hwritten : w.output.written = [])
    (hempty : w.files.find o.root = .ok (.directory access []))
    (hextension : '/' ∉ o.extension.toList)
    (hdistinct : files.Pairwise fun f f' => ¬ Collide o.root o.extension f f')
    (hresolves : ∀ f ∈ files, ∀ m ∈ f.messages, m.isSkipped = false → ∀ x ∈ m.kept,
      Resolves o g files (indexes (neededBy files)) f x) :
    IsModuleTree o now.files now.output.written g files (indexes (neededBy files)) := by
  have hroot := FileSystem.hasDirectory_root hempty
  have hbelow (file : GeneratedFile) (hfile : file ∈ treeFiles o g files) :=
    below_root hnamed hwrites hroot hextension hfile
  have hpaths : now.output.written = (treeFiles o g files).map (·.path) := by
    obtain ⟨placed, hplaced, hwrote⟩ := hwrites
    rw [hwrote.written, hwritten, List.nil_append, ← hplaced, List.map_map]
    rfl
  -- No path was used twice, so all files still hold what was written to them.
  have hapart := indexesApart o.root o.extension hnamed
  have hall : Path.Distinct ((treeFiles o g files).map (·.path)) := by
    rw [paths_treeFiles]
    have hiff := hapart.distinct_iff.2 hdistinct
    rwa [indexed, List.map_map] at hiff
  have hread := hwrites.read hempty
    (fun file hfile => (hbelow file hfile).imp fun _ h => h.2) hall
  have hdeclares := declares_indexes (neededBy files)
  refine ⟨hpaths.trans paths_treeFiles, fun p hp => ?_, fun f hf => ?_, fun i hi => ?_,
    fun f hf i hi => ?_, nodup_indexed files, hdeclares.1,
    fun f hf directory name h => declares_neededBy.2 ⟨f, hf, h⟩,
    fun directory name h => backed_of_declares h, hresolves⟩
  · rw [hpaths] at hp
    obtain ⟨file, hfile, rfl⟩ := List.mem_map.1 hp
    exact hbelow file hfile
  · exact hread (sourceOf o g f) (List.mem_append_left _ (List.mem_map.2 ⟨f, hf, rfl⟩))
  · exact hread (indexOf o i) (List.mem_append_right _ (List.mem_map.2 ⟨i, hi, rfl⟩))
  · exact not_same_indexPath (hnamed f hf).isModule
      (isModule_of_indexed hnamed (List.mem_map.2 ⟨i, hi, rfl⟩)) (isModule_fileModule f)

end Tree

end Rust

/-- In an empty output root the sources and the indexes of a run make up a tree of modules, whatever
the extension is, as long as no two files have the same source. -/
theorem Rust.modules_complete {settings : Settings} {dir : Path} {fs fs' : FileSystem}
    {plan : Plan (List Child)} {s : Session (List Child)} {roots : List Path} {stats : Stats}
    (hstart : (Session.start settings dir target extension []).run fs = (.ok (plan, s), fs'))
    (hempty : fs'.find settings.outDir = .ok (.directory .full []))
    (hextension : '/' ∉ (settings.fileExt.getD extension).toList)
    (hrun : (Session.run plan roots s).1 = .ok stats)
    (hapart : (s.told plan roots).Pairwise fun f f' =>
      ¬ Collide settings.outDir (settings.fileExt.getD extension) f f') :
    ∃ listing, IsModuleTree (.new settings.outDir (settings.fileExt.getD extension) settings.tool)
      (Session.run plan roots s).2.workspace.files
      (Session.run plan roots s).2.workspace.output.written
      (Session.run plan roots s).2.catalog.graph (s.told plan roots) listing := by
  obtain ⟨hplan, hfresh, hnotes, hgrown, houtput⟩ := Session.of_start hstart
  obtain ⟨hfiles, -, -⟩ := Session.files_of_start hstart
  have horderly := Catalog.isOrderly_of_ofRoot (Session.catalog_of_start hstart)
  have hnamed : ∀ f ∈ s.told plan roots, f.Named := fun f hf => named_of_told hgrown hf
  have hwrites := writes_run hplan hfresh (Session.closed_of_start hstart) hnotes hrun
  rw [houtput] at hwrites
  refine ⟨_, isModuleTree_of_writes hnamed hwrites (by rw [houtput]; rfl)
    (by rw [hfiles]; exact hempty) hextension hapart ?_⟩
  -- What the fields refer to are files told, which are all in the graph at the end.
  obtain ⟨after, hroots, -, hcatalog, -⟩ := Session.run_ok hrun
  have hgenerates : plan.target.Generates fun o g f => [sourceOf o g f] := hplan ▸ generates
  have hafter : ((roots.forM (Run.root plan)).run s).2.catalog.IsOrderly :=
    (Session.orderly_run horderly).1
  rw [hroots] at hafter
  obtain ⟨seen, hgrown'⟩ := hafter.grown
  rw [hcatalog]
  intro f hf m hm hkept x hx
  obtain ⟨i, hi⟩ := Session.mem_graph_of_told hgenerates horderly hroots hf
  exact resolves_of_grown hgrown'.graph _
    (fun f hf directory name h => declares_neededBy.2 ⟨f, hf, h⟩) hi hf
    (fun j hj e he => Session.told_of_dependency hgenerates horderly hroots hf hj he) hm hkept hx

/-! ### Two files whose names begin alike -/

/-- Two files of a package. One imports the other and refers to its message. -/
def neighbours : List (String × Node) :=
  [("a", .text "import \"a1\"; package p; message M \x7b N n = 1; \x7d"),
    ("a1", .text "package p; message N \x7b \x7d")]

/-- The session at its start. -/
def neighbourSession : Session (List Rust.Child) :=
  schemaSession Rust.extension [] neighbours

theorem start_neighbours :
    (Session.start twinSettings ⟨"/s"⟩ Rust.target Rust.extension []).run
      (schemaSystem neighbours) =
        (.ok (twinPlan Rust.target, neighbourSession), schemaSystemWithOutput neighbours) :=
  start_schemas _ _ _ neighbours

/-- The place for outputs is empty, whatever the schema files beside it are. -/
theorem empty_beside (entries : List (String × Node)) :
    (schemaSystemWithOutput entries).find twinSettings.outDir = .ok (.directory .full []) :=
  rfl

/-- The run succeeds, the index of the package declares both modules, and the sources of the two
files are apart. -/
theorem run_neighbours :
    (Session.run (twinPlan Rust.target) [⟨"/s/a"⟩] neighbourSession).1 = .ok ⟨2, 2, 0, 0⟩ ∧
      (Session.run (twinPlan Rust.target) [⟨"/s/a"⟩] neighbourSession).2.workspace.files.read
          ⟨"/o/p/mod.rs"⟩ = .ok (Output.bytes (Rust.indexLines "pbgen" ["a", "a1"])) ∧
      (neighbourSession.told (twinPlan Rust.target) [⟨"/s/a"⟩]).Pairwise fun f f' =>
        ¬ Rust.Collide twinSettings.outDir (twinSettings.fileExt.getD Rust.extension) f f' := by
  have hindexes : Rust.indexes [⟨[], "p"⟩, ⟨["p"], "a1"⟩, ⟨[], "p"⟩, ⟨["p"], "a"⟩] =
      [([], ["p"]), (["p"], ["a", "a1"])] := by
    cbv
  have hruns : ∃ r ∈ neighbourSession.runWithin (twinPlan Rust.target) 2
      (Rust.finishWith [([], ["p"]), (["p"], ["a", "a1"])]) [⟨"/s/a"⟩],
        r.2.1 = [⟨[], "p"⟩, ⟨["p"], "a1"⟩, ⟨[], "p"⟩, ⟨["p"], "a"⟩] ∧
        r.2.2.1 = .ok ⟨2, 2, 0, 0⟩ ∧ r.2.2.2.workspace.files.read ⟨"/o/p/mod.rs"⟩ =
          .ok (Output.bytes (Rust.indexLines "pbgen" ["a", "a1"])) ∧
        (SchemaFile.told Rust.target.refuses (r.1.flatMap Visit.files)).Pairwise fun f f' =>
          ¬ Rust.Collide twinSettings.outDir (twinSettings.fileExt.getD Rust.extension) f f' := by
    unfold Rust.Collide
    decide +kernel
  obtain ⟨⟨_, _, _⟩, hwithin, rfl, h⟩ := hruns
  obtain ⟨hrun, hvisited⟩ :=
    Session.run_of_within hwithin (Rust.finish_eq_finishWith hindexes)
  rwa [hrun, Session.told, hvisited]

/-- An index can declare a module before another one although its line comes behind in the order of
texts. -/
theorem Rust.declarations_unsorted :
    ∃ plan s fs' stats names,
      (Session.start twinSettings ⟨"/s"⟩ Rust.target Rust.extension []).run
          (schemaSystem neighbours) =
        (.ok (plan, s), fs') ∧
      fs'.find twinSettings.outDir = .ok (.directory .full []) ∧
      '/' ∉ (twinSettings.fileExt.getD Rust.extension).toList ∧
      (Session.run plan [⟨"/s/a"⟩] s).1 = .ok stats ∧
      ((s.told plan [⟨"/s/a"⟩]).Pairwise fun f f' =>
        ¬ Rust.Collide twinSettings.outDir (twinSettings.fileExt.getD Rust.extension) f f') ∧
      (Session.run plan [⟨"/s/a"⟩] s).2.workspace.files.read ⟨"/o/p/mod.rs"⟩ =
        .ok (Output.bytes (indexLines "pbgen" names)) ∧
      ¬ (names.map fun name => s!"pub mod {name};").Pairwise (· < ·) :=
  ⟨_, _, _, _, ["a", "a1"], start_neighbours, (empty_beside _), by decide, run_neighbours.1,
    run_neighbours.2.2, run_neighbours.2.1, by decide⟩

/-- The two files, their package and the reference between them. -/
theorem Rust.modules_complete_neighbours :
    ∃ plan s fs' stats,
      (Session.start twinSettings ⟨"/s"⟩ Rust.target Rust.extension []).run
          (schemaSystem neighbours) =
        (.ok (plan, s), fs') ∧
      (Session.run plan [⟨"/s/a"⟩] s).1 = .ok stats ∧ ∃ listing,
        IsModuleTree (.new ⟨"/o"⟩ ".rs" "pbgen")
          (Session.run plan [⟨"/s/a"⟩] s).2.workspace.files
          (Session.run plan [⟨"/s/a"⟩] s).2.workspace.output.written
          (Session.run plan [⟨"/s/a"⟩] s).2.catalog.graph (s.told plan [⟨"/s/a"⟩]) listing :=
  ⟨_, _, _, _, start_neighbours, run_neighbours.1,
    Rust.modules_complete start_neighbours (empty_beside _) (by decide) run_neighbours.1
      run_neighbours.2.2⟩

end SchemaGen
