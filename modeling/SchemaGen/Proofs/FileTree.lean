import SchemaGen.Proofs.Location
import Mathlib.Data.List.Nodup

/-!
# What lies where in a file system

A file system is a tree, but what a program can tell of it is what lies at each location: a file with
its contents, a link with its target, or a directory with the names in it. This is the shape of the
file system, and every change is described by what it does to the shape at every location.

All the changes that writing files makes are of two kinds: a file takes the place of a file, or
something without entries is added to a directory. Under both, a file system grows: directories and
links stay what they are, files stay files, and only files and directories are new.

Results:
1. `shape?_put_file`, `shape?_put_new`: what putting a node changes, location by location.
2. `Grows.trans` and its kin: growing is a preorder, and both changes let a file system grow.
3. `IsTidy.put_file`, `IsTidy.put_new`: both changes keep the names in a directory distinct.
-/

namespace SchemaGen

/-! ## Definitions -/

/-- What lies at a place, without what lies below it. -/
inductive Shape where
  | file (access : Access) (contents : ByteArray)
  | directory (access : Access) (names : List String)
  | link (target : Path)

/-- The shape of a node. -/
def Node.shape : Node → Shape
  | .file access contents => .file access contents
  | .directory access entries => .directory access (entries.map (·.1))
  | .link target => .link target

/-- A node without entries. -/
def Node.IsLeaf (n : Node) : Prop :=
  ∀ name, n.child? name = none

/-- What a place may become while files are written: files may get other contents, directories may
get more entries, and links stay. -/
inductive Shape.Grows : Option Shape → Option Shape → Prop where
  | absent : Grows none none
  | made (access : Access) (names : List String) : Grows none (some (.directory access names))
  | created (access : Access) (contents : ByteArray) : Grows none (some (.file access contents))
  | rewritten (access : Access) (before after : ByteArray) :
    Grows (some (.file access before)) (some (.file access after))
  | filled (access : Access) (names more : List String) :
    Grows (some (.directory access names)) (some (.directory access (names ++ more)))
  | link (target : Path) : Grows (some (.link target)) (some (.link target))

namespace FileSystem

/-- What lies at a location, without what lies below it. -/
def shape? (fs : FileSystem) (l : Location) : Option Shape :=
  (fs.node? l).map Node.shape

/-- The contents of the file at a location, if it may be read. -/
def contents? (fs : FileSystem) (l : Location) : Option ByteArray :=
  match fs.shape? l with
  | some (.file access contents) => if access = .none then none else some contents
  | _ => none

/-- `after` is `before` with more files and directories, or with other contents in its files. -/
structure Grows (before after : FileSystem) : Prop where
  workingDir : after.workingDir = before.workingDir
  shapes : ∀ l, Shape.Grows (before.shape? l) (after.shape? l)

/-- A file system as it is on a disk: its root is a directory, and the names in a directory are
distinct and can be spelled as components of paths. -/
structure IsTidy (fs : FileSystem) : Prop where
  root : ∃ access names, fs.shape? [] = some (.directory access names)
  nodup : ∀ l access names, fs.shape? l = some (.directory access names) → names.Nodup
  plain : ∀ l access names, fs.shape? l = some (.directory access names) →
    ∀ name ∈ names, IsPlainName name

end FileSystem

/-! ## Entries of a directory -/

namespace FileTreeLemmas

theorem lookup_setEntry_self (name : String) (n : Node) (entries : List (String × Node)) :
    (Node.setEntry name n entries).lookup name = some n := by
  induction entries with
  | nil => simp [Node.setEntry]
  | cons entry rest ih =>
    obtain ⟨other, m⟩ := entry
    by_cases h : other = name
    · simp [Node.setEntry, h]
    · have hne : (name == other) = false := by simpa using Ne.symm h
      simp [Node.setEntry, h, List.lookup_cons, hne, ih]

variable {name : String} {entries : List (String × Node)} {n m : Node}

theorem lookup_setEntry_of_ne {other : String} (h : other ≠ name) (n : Node)
    (entries : List (String × Node)) :
    (Node.setEntry name n entries).lookup other = entries.lookup other := by
  have hne : (other == name) = false := by simpa using h
  induction entries with
  | nil => simp [Node.setEntry, List.lookup_cons, hne]
  | cons entry rest ih =>
    obtain ⟨first, m⟩ := entry
    by_cases hfirst : first = name
    · simp [Node.setEntry, hfirst, List.lookup_cons, hne]
    · simp [Node.setEntry, hfirst, List.lookup_cons, ih]

theorem setEntry_setEntry (n m : Node) (entries : List (String × Node)) :
    Node.setEntry name n (Node.setEntry name m entries) = Node.setEntry name n entries := by
  induction entries with
  | nil => simp [Node.setEntry]
  | cons entry rest ih =>
    obtain ⟨other, k⟩ := entry
    by_cases hother : other = name <;> simp [Node.setEntry, hother, ih]

theorem setEntry_self (h : entries.lookup name = some n) :
    Node.setEntry name n entries = entries := by
  induction entries with
  | nil => cases h
  | cons entry rest ih =>
    obtain ⟨other, k⟩ := entry
    rw [List.lookup_cons] at h
    by_cases hother : other = name
    · rw [beq_iff_eq.2 hother.symm] at h
      simp [Node.setEntry, hother, Option.some.inj h]
    · rw [beq_eq_false_iff_ne.2 (Ne.symm hother)] at h
      simp [Node.setEntry, hother, ih h]

theorem lookup_eq_none_iff : entries.lookup name = none ↔ name ∉ entries.map (·.1) := by
  rw [List.lookup_eq_none_iff, List.mem_map, not_exists]
  constructor
  · rintro h ⟨other, n⟩ ⟨hmem, rfl⟩
    simpa using h _ hmem
  · intro h p hp
    simpa using fun heq => h p ⟨hp, Eq.symm heq⟩

theorem lookup_isSome_iff : (entries.lookup name).isSome ↔ name ∈ entries.map (·.1) := by
  rw [← not_iff_not, ← lookup_eq_none_iff, Bool.not_eq_true, Option.isSome_eq_false_iff,
    Option.isNone_iff_eq_none]

theorem lookup_of_mem (hnodup : (entries.map (·.1)).Nodup) (h : (name, n) ∈ entries) :
    entries.lookup name = some n := by
  induction entries with
  | nil => cases h
  | cons entry rest ih =>
    obtain ⟨other, m⟩ := entry
    rw [List.map_cons, List.nodup_cons] at hnodup
    rw [List.lookup_cons]
    rcases List.mem_cons.1 h with heq | hrest
    · obtain ⟨rfl, rfl⟩ := Prod.mk.inj heq
      simp
    · have hne : (name == other) = false := by
        refine beq_eq_false_iff_ne.2 fun heq => hnodup.1 ?_
        exact List.mem_map.2 ⟨_, hrest, heq⟩
      rw [hne]
      exact ih hnodup.2 hrest

theorem names_setEntry_of_mem (n : Node) (h : name ∈ entries.map (·.1)) :
    (Node.setEntry name n entries).map (·.1) = entries.map (·.1) := by
  induction entries with
  | nil => simp at h
  | cons entry rest ih =>
    obtain ⟨other, m⟩ := entry
    by_cases hother : other = name
    · simp [Node.setEntry, hother]
    · have hrest : name ∈ rest.map (·.1) := (List.mem_cons.1 h).resolve_left (Ne.symm hother)
      simpa [Node.setEntry, hother] using ih hrest

theorem names_setEntry_of_not_mem (n : Node) (h : name ∉ entries.map (·.1)) :
    (Node.setEntry name n entries).map (·.1) = entries.map (·.1) ++ [name] := by
  induction entries with
  | nil => rfl
  | cons entry rest ih =>
    obtain ⟨other, m⟩ := entry
    rw [List.map_cons, List.mem_cons, not_or] at h
    simpa [Node.setEntry, Ne.symm h.1] using ih h.2

/-! ## Locations below a node -/

theorem at?_append (l k : Location) (n : Node) :
    Node.at? (l ++ k) n = (Node.at? l n).bind (Node.at? k) := by
  induction l generalizing n with
  | nil => rfl
  | cons name rest ih =>
    simp only [List.cons_append, Node.at?]
    split
    · exact ih _
    · rfl

theorem at?_singleton (name : String) (n : Node) : Node.at? [name] n = n.child? name := by
  simp only [Node.at?]
  split <;> simp_all

theorem at?_cons_of_isLeaf (h : n.IsLeaf) (name : String) (rest : Location) :
    Node.at? (name :: rest) n = none := by
  simp [Node.at?, h name]

theorem isLeaf_file (access : Access) (contents : ByteArray) : (Node.file access contents).IsLeaf :=
  fun _ => rfl

theorem isLeaf_emptyDirectory : Node.emptyDirectory.IsLeaf := fun _ => rfl

/-- A directory on the way down to something. -/
theorem exists_directory_of_at?_cons {rest : Location} (h : Node.at? (name :: rest) n = some m) :
    ∃ access entries below, n = .directory access entries ∧
      entries.lookup name = some below ∧ Node.at? rest below = some m := by
  simp only [Node.at?] at h
  split at h
  · next below hchild =>
    cases n with
    | directory access entries => exact ⟨access, entries, below, rfl, hchild, h⟩
    | file => cases hchild
    | link => cases hchild
  · cases h

theorem at?_directory_cons (access : Access) (entries : List (String × Node)) (name : String)
    (rest : Location) :
    Node.at? (name :: rest) (.directory access entries) =
      (entries.lookup name).bind (Node.at? rest) := by
  simp only [Node.at?, Node.child?]
  cases entries.lookup name <;> rfl

section Below

variable {access : Access} {below : Node} (h : entries.lookup name = some below)

include h

theorem put_cons (m : Node) (rest : Location) :
    Node.put m (name :: rest) (.directory access entries) =
      .directory access (Node.setEntry name (Node.put m rest below) entries) := by
  simp [Node.put, h]

theorem shape_put_cons (m : Node) (rest : Location) :
    (Node.put m (name :: rest) (.directory access entries)).shape =
      (Node.directory access entries).shape := by
  have hmem : name ∈ entries.map (·.1) := lookup_isSome_iff.1 (by simp [h])
  rw [put_cons h, Node.shape, Node.shape, names_setEntry_of_mem _ hmem]

/-- What is put below one entry of a directory does not change what lies below the others. -/
theorem at?_put_cons (m : Node) (rest : Location) (other : String) (others : Location) :
    Node.at? (other :: others) (Node.put m (name :: rest) (.directory access entries)) =
      if other = name then Node.at? others (Node.put m rest below)
      else Node.at? (other :: others) (.directory access entries) := by
  rw [put_cons h, at?_directory_cons, at?_directory_cons]
  split
  · next heq => simp [heq, lookup_setEntry_self]
  · next hne => rw [lookup_setEntry_of_ne hne]

end Below

section Put

variable {l : Location} {old : Node} (h : Node.at? l n = some old)

include h

theorem at?_put (m : Node) : Node.at? l (Node.put m l n) = some m := by
  induction l generalizing n with
  | nil => rfl
  | cons name rest ih =>
    obtain ⟨access, entries, below, rfl, hentry, hbelow⟩ := exists_directory_of_at?_cons h
    rw [at?_put_cons hentry, if_pos rfl]
    exact ih hbelow

theorem put_put (m k : Node) : Node.put m l (Node.put k l n) = Node.put m l n := by
  induction l generalizing n with
  | nil => rfl
  | cons name rest ih =>
    obtain ⟨access, entries, below, rfl, hentry, hbelow⟩ := exists_directory_of_at?_cons h
    rw [put_cons hentry, put_cons hentry, put_cons (lookup_setEntry_self name _ entries),
      ih hbelow, setEntry_setEntry]

theorem put_self : Node.put old l n = n := by
  induction l generalizing n with
  | nil => exact (Option.some.inj h).symm
  | cons name rest ih =>
    obtain ⟨access, entries, below, rfl, hentry, hbelow⟩ := exists_directory_of_at?_cons h
    rw [put_cons hentry, ih hbelow, setEntry_self hentry]

end Put

/-- Putting a leaf in the place of a leaf changes nothing elsewhere. -/
theorem shape_at?_put_leaf {old : Node} (hm : m.IsLeaf) (hold : old.IsLeaf) {l : Location}
    (h : Node.at? l n = some old) (k : Location) :
    (Node.at? k (Node.put m l n)).map Node.shape =
      if k = l then some m.shape else (Node.at? k n).map Node.shape := by
  induction l generalizing n k with
  | nil =>
    obtain rfl := Option.some.inj h
    cases k with
    | nil => simp [Node.put, Node.at?]
    | cons name rest => simp [Node.put, at?_cons_of_isLeaf hm, at?_cons_of_isLeaf hold]
  | cons name rest ih =>
    obtain ⟨access, entries, below, rfl, hentry, hbelow⟩ := exists_directory_of_at?_cons h
    cases k with
    | nil => simp [Node.at?, shape_put_cons hentry]
    | cons other others =>
      rw [at?_put_cons hentry]
      by_cases hother : other = name
      · subst hother
        simpa [at?_directory_cons, hentry] using ih hbelow others
      · simp [hother]

/-- Adding a leaf to a directory adds its name there and changes nothing else. -/
theorem shape_at?_put_new (hm : m.IsLeaf) {d : Location} {access : Access}
    (h : Node.at? d n = some (.directory access entries)) (hnew : entries.lookup name = none)
    (k : Location) :
    (Node.at? k (Node.put m (d ++ [name]) n)).map Node.shape =
      if k = d ++ [name] then some m.shape
      else if k = d then some (.directory access (entries.map (·.1) ++ [name]))
      else (Node.at? k n).map Node.shape := by
  induction d generalizing n k with
  | nil =>
    obtain rfl := Option.some.inj h
    have hput : Node.put m [name] (.directory access entries) =
        .directory access (Node.setEntry name m entries) := by
      simp [Node.put, hnew]
    rw [List.nil_append, hput]
    cases k with
    | nil =>
      simp [Node.at?, Node.shape, names_setEntry_of_not_mem m (lookup_eq_none_iff.1 hnew)]
    | cons other others =>
      rw [at?_directory_cons, at?_directory_cons]
      by_cases hother : other = name
      · subst hother
        cases others with
        | nil => simp [lookup_setEntry_self, Node.at?]
        | cons next rest => simp [lookup_setEntry_self, hnew, at?_cons_of_isLeaf hm]
      · simp [lookup_setEntry_of_ne hother, hother]
  | cons first rest ih =>
    obtain ⟨outer, others, below, rfl, hentry, hbelow⟩ := exists_directory_of_at?_cons h
    rw [List.cons_append]
    cases k with
    | nil => simp [Node.at?, shape_put_cons hentry]
    | cons other names =>
      rw [at?_put_cons hentry]
      by_cases hother : other = first
      · subst hother
        simpa [at?_directory_cons, hentry] using ih hbelow names
      · simp [hother]

end FileTreeLemmas

open FileTreeLemmas

namespace FileSystem

/-! ## 1. Changes at a location -/

variable {fs : FileSystem} {l : Location} {access : Access} {names : List String}
  {contents : ByteArray}

theorem shape?_of_node? {n : Node} (h : fs.node? l = some n) : fs.shape? l = some n.shape := by
  simp [shape?, h]

theorem node?_of_shape?_directory (h : fs.shape? l = some (.directory access names)) :
    ∃ entries, fs.node? l = some (.directory access entries) ∧ entries.map (·.1) = names := by
  obtain ⟨n, hn, hshape⟩ := Option.map_eq_some_iff.1 h
  cases n <;> cases hshape
  exact ⟨_, hn, rfl⟩

theorem node?_of_shape?_file (h : fs.shape? l = some (.file access contents)) :
    fs.node? l = some (.file access contents) := by
  obtain ⟨n, hn, hshape⟩ := Option.map_eq_some_iff.1 h
  cases n <;> cases hshape
  exact hn

theorem node?_of_shape?_link {target : Path} (h : fs.shape? l = some (.link target)) :
    fs.node? l = some (.link target) := by
  obtain ⟨n, hn, hshape⟩ := Option.map_eq_some_iff.1 h
  cases n <;> cases hshape
  exact hn

theorem contents?_eq_some_iff : fs.contents? l = some contents ↔
    ∃ access, fs.shape? l = some (.file access contents) ∧ access ≠ .none := by
  unfold contents?
  split <;> simp_all [and_comm]

theorem contents?_of_full (h : fs.shape? l = some (.file .full contents)) :
    fs.contents? l = some contents :=
  contents?_eq_some_iff.2 ⟨.full, h, by decide⟩

theorem readAt_eq_ok_iff : fs.readAt l = .ok contents ↔ fs.contents? l = some contents := by
  rw [contents?_eq_some_iff, readAt]
  cases hnode : fs.node? l with
  | none => simp [shape?, hnode]
  | some n =>
    rw [contentsOf_eq_ok_iff, shape?_of_node? hnode]
    cases n <;> simp [Node.shape]

/-- Below a directory there is something exactly where it has a name. -/
theorem shape?_isSome_iff (h : fs.shape? l = some (.directory access names)) (name : String) :
    (fs.shape? (l ++ [name])).isSome ↔ name ∈ names := by
  obtain ⟨entries, hnode, rfl⟩ := node?_of_shape?_directory h
  rw [← lookup_isSome_iff, shape?, node?, at?_append, Option.isSome_map]
  rw [node?] at hnode
  simp [hnode, at?_singleton, Node.child?]

theorem not_mem_names (h : fs.shape? l = some (.directory access names)) {name : String}
    (hnone : fs.shape? (l ++ [name]) = none) : name ∉ names := by
  rw [← shape?_isSome_iff h, hnone]
  simp

/-- Above whatever is there lies a directory. -/
theorem exists_directory_above {k : Location} {s : Shape} (h : fs.shape? (l ++ k) = some s)
    (hk : k ≠ []) : ∃ access names, fs.shape? l = some (.directory access names) := by
  obtain ⟨n, hn, -⟩ := Option.map_eq_some_iff.1 h
  rw [node?, at?_append, Option.bind_eq_some_iff] at hn
  obtain ⟨m, hm, hbelow⟩ := hn
  obtain ⟨name, rest, rfl⟩ := List.exists_cons_of_ne_nil hk
  obtain ⟨access, entries, -, rfl, -, -⟩ := exists_directory_of_at?_cons hbelow
  exact ⟨access, _, shape?_of_node? hm⟩

/-- A file takes the place of a file. -/
theorem shape?_put_file {before : ByteArray} (h : fs.node? l = some (.file access before))
    (after : ByteArray) (k : Location) :
    (fs.put l (.file access after)).shape? k =
      if k = l then some (.file access after) else fs.shape? k :=
  shape_at?_put_leaf (isLeaf_file _ after) (isLeaf_file _ before) h k

/-- Something without entries is added to a directory. -/
theorem shape?_put_new {d : Location} {name : String} {m : Node} (hm : m.IsLeaf)
    (h : fs.shape? d = some (.directory access names)) (hnew : name ∉ names) (k : Location) :
    (fs.put (d ++ [name]) m).shape? k =
      if k = d ++ [name] then some m.shape
      else if k = d then some (.directory access (names ++ [name]))
      else fs.shape? k := by
  obtain ⟨entries, hnode, rfl⟩ := node?_of_shape?_directory h
  exact shape_at?_put_new hm hnode (lookup_eq_none_iff.2 hnew) k

/-! ## 2. Growing -/

end FileSystem

theorem Shape.Grows.refl (s : Option Shape) : Shape.Grows s s := by
  cases s with
  | none => exact .absent
  | some s =>
    cases s with
    | file access contents => exact .rewritten access contents contents
    | directory access names => simpa using Grows.filled access names []
    | link target => exact .link target

theorem Shape.Grows.trans {r s t : Option Shape} (hrs : Shape.Grows r s) (hst : Shape.Grows s t) :
    Shape.Grows r t := by
  cases hrs with
  | absent => exact hst
  | made access names => cases hst with | filled _ _ more => exact .made access _
  | created access contents => cases hst with | rewritten _ _ after => exact .created access after
  | rewritten access before contents =>
    cases hst with
    | rewritten _ _ after => exact .rewritten access before after
  | filled access names more =>
    cases hst with
    | filled _ _ others => simpa using Grows.filled access names (more ++ others)
  | link target => exact hst

namespace FileSystem

theorem Grows.refl (fs : FileSystem) : fs.Grows fs :=
  ⟨rfl, fun _ => .refl _⟩

variable {fs fs' : FileSystem} {l : Location} {access : Access} {names : List String}

theorem Grows.trans {fs'' : FileSystem} (h : fs.Grows fs') (h' : fs'.Grows fs'') : fs.Grows fs'' :=
  ⟨h'.workingDir.trans h.workingDir, fun l => (h.shapes l).trans (h'.shapes l)⟩

theorem Grows.directory (h : fs.Grows fs') (hdir : fs.shape? l = some (.directory access names)) :
    ∃ more, fs'.shape? l = some (.directory access (names ++ more)) := by
  have hl := h.shapes l
  rw [hdir] at hl
  generalize hnow : fs'.shape? l = now at hl
  cases hl with
  | filled _ _ more => exact ⟨more, rfl⟩

theorem Grows.file (h : fs.Grows fs') {contents : ByteArray}
    (hfile : fs.shape? l = some (.file access contents)) :
    ∃ after, fs'.shape? l = some (.file access after) := by
  have hl := h.shapes l
  rw [hfile] at hl
  generalize hnow : fs'.shape? l = now at hl
  cases hl with
  | rewritten _ _ after => exact ⟨after, rfl⟩

/-- Links are neither made nor taken away. -/
theorem Grows.link_iff (h : fs.Grows fs') (l : Location) (target : Path) :
    fs'.shape? l = some (.link target) ↔ fs.shape? l = some (.link target) := by
  have hl := h.shapes l
  generalize fs.shape? l = before at hl
  generalize fs'.shape? l = after at hl
  cases hl <;> simp

theorem grows_put_file {before : ByteArray} (h : fs.node? l = some (.file access before))
    (after : ByteArray) : fs.Grows (fs.put l (.file access after)) := by
  refine ⟨rfl, fun k => ?_⟩
  rw [shape?_put_file h]
  split
  · next heq =>
    rw [heq, shape?_of_node? h]
    exact .rewritten access before after
  · exact .refl _

theorem grows_put_new {d : Location} {name : String} {m : Node} (hm : m.IsLeaf)
    (hlink : ∀ target, m ≠ .link target) (h : fs.shape? d = some (.directory access names))
    (hnew : name ∉ names) : fs.Grows (fs.put (d ++ [name]) m) := by
  refine ⟨rfl, fun k => ?_⟩
  rw [shape?_put_new hm h hnew]
  split
  · next heq =>
    have habsent : fs.shape? k = none := by
      rw [heq, ← Option.not_isSome_iff_eq_none, shape?_isSome_iff h]
      exact hnew
    rw [habsent]
    cases m with
    | file access contents => exact .created access contents
    | directory access entries => exact .made access _
    | link target => exact absurd rfl (hlink target)
  split
  · next heq =>
    rw [heq, h]
    exact .filled access names [name]
  · exact .refl _

/-! ## 3. Tidy file systems -/

instance (name : String) : Decidable (IsPlainName name) :=
  inferInstanceAs (Decidable (_ ∧ _ ∧ _ ∧ _))

/-- Whether the names in a directory are distinct and can be spelled as components. -/
def hasTidyNames : Node → Bool
  | .directory _ entries => decide ((entries.map (·.1)).Nodup) &&
      entries.all fun (name, _) => decide (IsPlainName name)
  | _ => true

/-- For a given file system it can be checked that it is tidy. -/
theorem isTidy_of_places (hroot : ∃ access names, fs.shape? [] = some (.directory access names))
    (h : fs.places.all (fun (_, n) => hasTidyNames n) = true) : fs.IsTidy := by
  have hnames {l : Location} {access : Access} {names : List String}
      (hl : fs.shape? l = some (.directory access names)) :
      names.Nodup ∧ ∀ name ∈ names, IsPlainName name := by
    obtain ⟨entries, hnode, rfl⟩ := node?_of_shape?_directory hl
    have htidy : hasTidyNames (.directory access entries) = true :=
      List.all_eq_true.1 h _ (mem_places_of_node? hnode)
    rw [hasTidyNames, Bool.and_eq_true, decide_eq_true_iff, List.all_eq_true] at htidy
    refine ⟨htidy.1, fun name hname => ?_⟩
    obtain ⟨e, he, rfl⟩ := List.mem_map.1 hname
    exact of_decide_eq_true (htidy.2 e he)
  exact ⟨hroot, fun _ _ _ hl => (hnames hl).1, fun _ _ _ hl => (hnames hl).2⟩

theorem IsTidy.put_file (h : fs.IsTidy) {before : ByteArray}
    (hl : fs.node? l = some (.file access before)) (after : ByteArray) :
    (fs.put l (.file access after)).IsTidy := by
  have hshape := shape?_put_file hl after
  have hdir : ∀ k w names,
      (fs.put l (.file access after)).shape? k = some (.directory w names) →
        fs.shape? k = some (.directory w names) := by
    intro k w names hk
    rw [hshape] at hk
    split at hk
    · cases hk
    · exact hk
  refine ⟨?_, fun k w names hk => h.nodup k w names (hdir k w names hk),
    fun k w names hk => h.plain k w names (hdir k w names hk)⟩
  obtain ⟨w, names, hroot⟩ := h.root
  refine ⟨w, names, ?_⟩
  rw [hshape, if_neg, hroot]
  rintro rfl
  rw [shape?_of_node? hl] at hroot
  cases hroot

theorem IsTidy.put_new (h : fs.IsTidy) {d : Location} {name : String} {m : Node} (hm : m.IsLeaf)
    (hd : fs.shape? d = some (.directory access names)) (hnew : name ∉ names)
    (hname : IsPlainName name) : (fs.put (d ++ [name]) m).IsTidy := by
  have hshape := shape?_put_new (m := m) hm hd hnew
  have hcases : ∀ k w others, (fs.put (d ++ [name]) m).shape? k = some (.directory w others) →
      others = [] ∨ others = names ++ [name] ∨ fs.shape? k = some (.directory w others) := by
    intro k w others hk
    rw [hshape] at hk
    split at hk
    · cases m with
      | directory w' entries =>
        cases entries with
        | nil =>
          cases hk
          exact Or.inl rfl
        | cons entry rest => simpa [Node.child?] using hm entry.1
      | file => cases hk
      | link => cases hk
    split at hk
    · cases hk
      exact Or.inr (Or.inl rfl)
    · exact Or.inr (Or.inr hk)
  refine ⟨?_, ?_, ?_⟩
  · obtain ⟨w, others, hroot⟩ := h.root
    by_cases hnil : d = []
    · subst hnil
      exact ⟨access, names ++ [name], by rw [hshape]; simp⟩
    · exact ⟨w, others, by rw [hshape, if_neg (by simp), if_neg (Ne.symm hnil), hroot]⟩
  · intro k w others hk
    rcases hcases k w others hk with rfl | rfl | hold
    · exact List.nodup_nil
    · exact List.nodup_append.2 ⟨h.nodup d _ _ hd, List.nodup_singleton name, by
        rintro a ha b hb rfl
        exact hnew (List.mem_singleton.1 hb ▸ ha)⟩
    · exact h.nodup k w others hold
  · intro k w others hk other hother
    rcases hcases k w others hk with rfl | rfl | hold
    · cases hother
    · rcases List.mem_append.1 hother with hother | hother
      · exact h.plain d _ _ hd other hother
      · exact List.mem_singleton.1 hother ▸ hname
    · exact h.plain k w others hold other hother

end FileSystem

end SchemaGen
