import SchemaGen.Proofs.Headers

/-!
# The lists of headers

A file has three lists of headers, and the kind of a header says which one it goes into. A header
whose name is in its list already takes the place of the one with this name. So each list is an
ordered map: its names are distinct and stand in the order of their first use, and each has the
header that was added last. What goes into one list does not matter to the others.

Results:
1. `SchemaFile.list_addHeaders`: a list is made of the headers that go into it, and of no others.
2. `Stored.putInto`: one more header keeps a list an ordered map.
3. `headers_stored`: the lists of a file, after any headers.
-/

namespace SchemaGen

/-! ## Definitions -/

/-- The lists of headers that a file has. -/
inductive HeaderList where
  | headers
  | imports
  | options
deriving DecidableEq, Repr

/-- The list for headers of a kind. -/
def HeaderKind.list : HeaderKind → HeaderList
  | importing => .imports
  | option => .options
  | level | package => .headers

/-- The headers among `added` that go into the list. -/
def HeaderList.own (l : HeaderList) (added : List Header) : List Header :=
  added.filter (·.kind.list = l)

/-- The headers in a list of the file. -/
def SchemaFile.list (f : SchemaFile) : HeaderList → List Header
  | .headers => f.headers
  | .imports => f.imports
  | .options => f.options

/-- The names of headers. -/
def Header.names (headers : List Header) : List String :=
  headers.map (·.name)

/-- The value of the last header named `name`. -/
def Header.lastValue? (name : String) (headers : List Header) : Option String :=
  (headers.filter (·.name = name)).getLast?.map (·.value)

/-- The list `stored` holds every name in `added` once, the name that was used first in front, and
for each name the header that was added last. -/
structure Stored (added stored : List Header) : Prop where
  distinct : (Header.names stored).Nodup
  used : ∀ name, name ∈ Header.names stored ↔ name ∈ Header.names added
  ordered : (Header.names stored).Pairwise fun a b =>
    (Header.names added).idxOf a < (Header.names added).idxOf b
  last : ∀ h ∈ stored, ∃ before after, added = before ++ h :: after ∧ h.name ∉ Header.names after

/-! ## 1. Lists do not meet -/

namespace SchemaFile

theorem list_addHeader (f : SchemaFile) (h : Header) (l : HeaderList) :
    (f.addHeader h).list l = if h.kind.list = l then h.putInto (f.list l) else f.list l := by
  obtain ⟨kind, name, value⟩ := h
  cases kind <;> cases l <;> rfl

/-- A list is made of the headers that go into it. -/
theorem list_addHeaders (f : SchemaFile) (added : List Header) (l : HeaderList) :
    (added.foldl addHeader f).list l =
      (l.own added).foldl (fun stored h => h.putInto stored) (f.list l) := by
  induction added generalizing f with
  | nil => rfl
  | cons h added ih =>
    rw [List.foldl_cons, ih, list_addHeader, HeaderList.own, HeaderList.own, List.filter_cons]
    by_cases hl : h.kind.list = l
    · simp [hl]
    · simp [hl]

theorem eq_of_lists {f f' : SchemaFile} (hplace : f.place = f'.place)
    (hlist : ∀ l, f.list l = f'.list l) (hmessages : f.messages = f'.messages)
    (henums : f.enums = f'.enums) (hdefinitions : f.definitions = f'.definitions) : f = f' := by
  have hheaders : f.headers = f'.headers := hlist .headers
  have himports : f.imports = f'.imports := hlist .imports
  have hoptions : f.options = f'.options := hlist .options
  cases f
  cases f'
  simp only [place, Prod.mk.injEq] at hplace
  simp_all

/-- Headers that come into each list in the same order leave the same file. -/
theorem addHeaders_congr {f : SchemaFile} {added added' : List Header}
    (h : ∀ l : HeaderList, l.own added' = l.own added) :
    added'.foldl addHeader f = added.foldl addHeader f := by
  obtain ⟨hmessages, henums, hnames⟩ := FillingLemmas.addHeaders_definitions f added
  obtain ⟨hmessages', henums', hnames'⟩ := FillingLemmas.addHeaders_definitions f added'
  refine eq_of_lists ?_ (fun l => ?_) (hmessages'.trans hmessages.symm) (henums'.trans henums.symm)
    (hnames'.trans hnames.symm)
  · rw [FillingLemmas.addHeaders_place, FillingLemmas.addHeaders_place]
  · rw [list_addHeaders, list_addHeaders, h l]

end SchemaFile

/-! ## 2. Lists are ordered maps -/

namespace Header

/-- A header goes behind all others or takes the place of the first one with its name. -/
theorem putInto_cases (h : Header) (stored : List Header) :
    h.name ∉ names stored ∧ h.putInto stored = stored ++ [h] ∨
      ∃ before old after, stored = before ++ old :: after ∧ old.name = h.name ∧
        h.putInto stored = before ++ h :: after := by
  induction stored with
  | nil => exact .inl ⟨List.not_mem_nil, rfl⟩
  | cons other rest ih =>
    rw [putInto]
    by_cases hname : other.name = h.name
    · rw [if_pos hname]
      exact .inr ⟨[], other, rest, rfl, hname, rfl⟩
    · rw [if_neg hname]
      rcases ih with ⟨hnew, hput⟩ | ⟨before, old, after, rfl, hold, hput⟩
      · rw [hput]
        refine .inl ⟨?_, rfl⟩
        rw [names, List.map_cons, List.mem_cons, not_or]
        exact ⟨Ne.symm hname, hnew⟩
      · rw [hput]
        exact .inr ⟨other :: before, old, after, rfl, hold, rfl⟩

theorem names_append (headers others : List Header) :
    names (headers ++ others) = names headers ++ names others :=
  List.map_append

end Header

namespace Stored

open Header (names names_append)

theorem nil : Stored [] [] :=
  ⟨.nil, fun _ => Iff.rfl, .nil, nofun⟩

variable {added stored : List Header}

theorem idxOf_append (hs : Stored added stored) {name : String} (hname : name ∈ names stored)
    (h : Header) : (names (added ++ [h])).idxOf name = (names added).idxOf name := by
  rw [names_append, List.idxOf_append_of_mem ((hs.used name).1 hname)]

theorem ordered_append (hs : Stored added stored) (h : Header) :
    (names stored).Pairwise fun a b =>
      (names (added ++ [h])).idxOf a < (names (added ++ [h])).idxOf b := by
  refine hs.ordered.imp_of_mem fun ha hb hlt => ?_
  rwa [hs.idxOf_append ha, hs.idxOf_append hb]

theorem last_append (hs : Stored added stored) {h old : Header} (hold : old ∈ stored)
    (hname : old.name ≠ h.name) :
    ∃ before after, added ++ [h] = before ++ old :: after ∧ old.name ∉ names after := by
  obtain ⟨before, after, rfl, hafter⟩ := hs.last old hold
  refine ⟨before, after ++ [h], by simp, ?_⟩
  rw [names_append, List.mem_append, not_or]
  exact ⟨hafter, by simpa [names] using hname⟩

/-- A header with a new name. -/
theorem snoc (hs : Stored added stored) {h : Header} (hnew : h.name ∉ names stored) :
    Stored (added ++ [h]) (stored ++ [h]) where
  distinct := by
    rw [names_append]
    have hsingle : (names [h]).Nodup := List.pairwise_singleton _ _
    refine List.nodup_append.2 ⟨hs.distinct, hsingle, fun a ha b hb heq => hnew ?_⟩
    obtain rfl : b = h.name := by simpa [names] using hb
    exact heq ▸ ha
  used name := by
    rw [names_append, names_append, List.mem_append, List.mem_append, hs.used]
  ordered := by
    rw [names_append stored, List.pairwise_append]
    refine ⟨hs.ordered_append h, List.pairwise_singleton _ _, fun a ha b hb => ?_⟩
    obtain rfl : b = h.name := by simpa [names] using hb
    have hused := (hs.used a).1 ha
    have hunused : h.name ∉ names added := mt (hs.used h.name).2 hnew
    rw [hs.idxOf_append ha, names_append, List.idxOf_append_of_notMem hunused]
    exact Nat.lt_of_lt_of_le (List.idxOf_lt_length_of_mem hused) (Nat.le_add_right _ _)
  last old hold := by
    rcases List.mem_append.1 hold with hmem | hmem
    · refine hs.last_append hmem fun hname => hnew ?_
      rw [← hname]
      exact List.mem_map_of_mem hmem
    · obtain rfl := List.mem_singleton.1 hmem
      exact ⟨added, [], rfl, List.not_mem_nil⟩

/-- A header with the name of an earlier one. -/
theorem replace {before after : List Header} {old h : Header}
    (hs : Stored added (before ++ old :: after)) (hname : old.name = h.name) :
    Stored (added ++ [h]) (before ++ h :: after) := by
  have hnames : names (before ++ h :: after) = names (before ++ old :: after) := by
    simp [names, hname]
  refine ⟨hnames ▸ hs.distinct, fun name => ?_, hnames ▸ hs.ordered_append h, fun x hx => ?_⟩
  · have hused : h.name ∈ names added := by
      rw [← hs.used, ← hname]
      exact List.mem_map_of_mem (List.mem_append_right before List.mem_cons_self)
    rw [hnames, hs.used, names_append, List.mem_append]
    refine ⟨.inl, Or.rec id fun hmem => ?_⟩
    obtain rfl := List.mem_singleton.1 hmem
    exact hused
  · -- The names in the list are distinct, so no other entry has the name of the new header.
    obtain ⟨-, hdistinct, hfront⟩ := List.nodup_append.1 (names_append before _ ▸ hs.distinct)
    have hback : old.name ∉ names after := (List.nodup_cons.1 hdistinct).1
    rcases List.mem_append.1 hx with hmem | hmem
    · have hne : x.name ≠ h.name :=
        hname ▸ hfront _ (List.mem_map_of_mem hmem) _ List.mem_cons_self
      exact hs.last_append (List.mem_append_left _ hmem) hne
    · rcases List.mem_cons.1 hmem with rfl | hmem
      · exact ⟨added, [], rfl, List.not_mem_nil⟩
      · have hne : x.name ≠ h.name := by
          intro heq
          refine hback ?_
          rw [hname, ← heq]
          exact List.mem_map_of_mem hmem
        exact hs.last_append (List.mem_append_right _ (List.mem_cons_of_mem _ hmem)) hne

/-- One more header keeps a list an ordered map. -/
theorem putInto (hs : Stored added stored) (h : Header) :
    Stored (added ++ [h]) (h.putInto stored) := by
  rcases h.putInto_cases stored with ⟨hnew, hput⟩ | ⟨before, old, after, rfl, hname, hput⟩
  · rw [hput]
    exact hs.snoc hnew
  · rw [hput]
    exact hs.replace hname

end Stored

theorem stored_foldl (added : List Header) :
    Stored added (added.foldl (fun stored h => h.putInto stored) []) := by
  induction added using List.reverseRecOn with
  | nil => exact .nil
  | append_singleton added h ih =>
    rw [List.foldl_concat]
    exact ih.putInto h

theorem Header.valueIn?_foldl (name : String) (added : List Header) :
    valueIn? name (added.foldl (fun stored h => h.putInto stored) []) = lastValue? name added := by
  induction added using List.reverseRecOn with
  | nil => rfl
  | append_singleton added h ih =>
    rw [List.foldl_concat, valueIn?_putInto, ih, lastValue?, lastValue?, List.filter_append]
    by_cases hname : h.name = name
    · simp [hname]
    · simp [hname]

/-! ## 3. The headers of a file -/

/-- Whatever headers are added to a new file, each of its lists holds the names of the headers that
go into it once each, in the order of their first use, with the header that was added last. So the
values of options, the package and the level are those of the last header of that name. Headers that
go into different lists can be exchanged, and only the order within each list matters. -/
theorem headers_stored (id : FileId) (rootDir file path : Path) (added : List Header) :
    let new := SchemaFile.empty id rootDir file path
    let f := added.foldl SchemaFile.addHeader new
    (∀ l : HeaderList, Stored (l.own added) (f.list l)) ∧
      (∀ name, f.option? name = Header.lastValue? name (HeaderList.options.own added)) ∧
      f.package? = Header.lastValue? "package" (HeaderList.headers.own added) ∧
      f.level? = Header.lastValue? "syntax" (HeaderList.headers.own added) ∧
      (∀ before a b after, added = before ++ a :: b :: after → a.kind.list ≠ b.kind.list →
        (before ++ b :: a :: after).foldl SchemaFile.addHeader new = f) ∧
      ∀ added' : List Header, (∀ l : HeaderList, l.own added' = l.own added) →
        added'.foldl SchemaFile.addHeader new = f := by
  intro new f
  have hlist (l : HeaderList) :
      f.list l = (l.own added).foldl (fun stored h => h.putInto stored) [] := by
    rw [SchemaFile.list_addHeaders]
    cases l <;> rfl
  refine ⟨fun l => ?_, fun name => ?_, ?_, ?_, ?_, fun added' => SchemaFile.addHeaders_congr⟩
  · rw [hlist]
    exact stored_foldl _
  · rw [← Header.valueIn?_foldl, ← hlist]
    rfl
  · rw [← Header.valueIn?_foldl, ← hlist]
    rfl
  · rw [← Header.valueIn?_foldl, ← hlist]
    rfl
  · rintro before a b after rfl hne
    refine SchemaFile.addHeaders_congr fun l => ?_
    simp only [HeaderList.own, List.filter_append, List.filter_cons]
    by_cases ha : a.kind.list = l
    · have hb : b.kind.list ≠ l := ha ▸ hne.symm
      simp [ha, hb]
    · simp [ha]

/-- Headers in which an option is used again behind another one, and a level is called `package`. -/
def mixedHeaders : List Header :=
  [⟨.option, "a", "1"⟩, ⟨.package, "package", "p"⟩, ⟨.option, "b", "2"⟩, ⟨.level, "package", "q"⟩,
    ⟨.option, "a", "3"⟩]

/-- The option that is used again keeps its place, and the level counts as the package. The last two
headers go into different lists. -/
theorem headers_stored_mixed :
    let new := SchemaFile.empty 0 ⟨"/s"⟩ ⟨"a"⟩ ⟨"/s/a"⟩
    let f := mixedHeaders.foldl SchemaFile.addHeader new
    f.options = [⟨.option, "a", "3"⟩, ⟨.option, "b", "2"⟩] ∧ f.package? = some "q" ∧
      Stored [⟨.option, "a", "1"⟩, ⟨.option, "b", "2"⟩, ⟨.option, "a", "3"⟩] f.options ∧
      HeaderKind.level.list ≠ HeaderKind.option.list ∧
      List.foldl SchemaFile.addHeader new
        (mixedHeaders.take 3 ++ [⟨.option, "a", "3"⟩, ⟨.level, "package", "q"⟩]) = f := by
  obtain ⟨hstored, -, -, -, hswap, -⟩ := headers_stored 0 ⟨"/s"⟩ ⟨"a"⟩ ⟨"/s/a"⟩ mixedHeaders
  exact ⟨by decide, by decide, hstored .options, by decide,
    hswap (mixedHeaders.take 3) _ _ [] rfl (by decide)⟩

end SchemaGen
