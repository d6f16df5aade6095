import SchemaGen.Proofs.FileTree
import SchemaGen.Proofs.OutputPaths
import Mathlib.Algebra.GroupWithZero.Nat
import Mathlib.Data.List.Induction

/-!
# How paths lead through a file system

Following a path is a loop over its steps inside a loop over the links on the way. Here it is put as
a relation, `Leads`, with one rule for each way that a step can go, over locations and shapes only.
Following a path succeeds exactly where the relation says so (`reaches_iff`), and facts about paths
are proved by induction on the rules.

A path that leads to a name that nothing has leads to the location that something of this name would
have. So a path leads to the same place before and after a file is made there.

Results:
1. `leads_of_walk`, `walk_of_leads`, `reaches_iff`: following a path is the relation.
2. `Reaches.grows`: a path still leads to the same place when the file system has grown.
3. `Reaches.unique`: file systems with the same links let a path lead to one place at most.
4. `Reaches.child`, `Reaches.below`: where paths lead that name something in a directory.
-/

namespace SchemaGen

/-! ## Definitions -/

/-- The bytes of the path of a location; the root takes none. -/
def Location.size (l : Location) : Nat :=
  (l.map (·.utf8ByteSize + 1)).sum

/-- The location that a path leads to, also if nothing is there. -/
def Place.location : Place → Location
  | .found location _ => location
  | .vacant directory name => directory ++ [name]

namespace FileSystem

/-- There is a directory at `l`. -/
def HasDirectory (fs : FileSystem) (l : Location) : Prop :=
  ∃ access names, fs.shape? l = some (.directory access names)

/-- There is a link at `l`. -/
def HasLink (fs : FileSystem) (l : Location) : Prop :=
  ∃ target, fs.shape? l = some (.link target)

/-- A name that can be asked for in the directory `here`, if the steps `rest` come after it. -/
structure Asked (purpose : Purpose) (here : Location) (step : String) (rest : List String) :
    Prop where
  named : step ≠ "" ∧ step ≠ "." ∧ step ≠ ".."
  written : ¬ (purpose = .write ∧ rest = [""])
  short : step.utf8ByteSize ≤ maxNameSize
  near : purpose = .resolve → here.size + 1 + step.utf8ByteSize < maxPathSize

/-- From the location `here` the steps lead to a location, through exactly so many links. -/
inductive Leads (fs : FileSystem) (purpose : Purpose) :
    (links : Nat) → Location → List String → Location → Prop where
  | arrive {here : Location} : Leads fs purpose 0 here [] here
  | stay {links : Nat} {here l : Location} {step : String} {rest : List String}
    (inside : fs.HasDirectory here) (dot : step = "" ∨ step = ".")
    (onward : Leads fs purpose links here rest l) : Leads fs purpose links here (step :: rest) l
  | up {links : Nat} {here l : Location} {rest : List String} (inside : fs.HasDirectory here)
    (onward : Leads fs purpose links here.dropLast rest l) :
    Leads fs purpose links here (".." :: rest) l
  /-- What is entered may be missing if it comes last. -/
  | enter {links : Nat} {here l : Location} {step : String} {rest : List String}
    (inside : fs.HasDirectory here) (asked : Asked purpose here step rest)
    (noLink : ¬ fs.HasLink (here ++ [step])) (last : fs.shape? (here ++ [step]) = none → rest = [])
    (onward : Leads fs purpose links (here ++ [step]) rest l) :
    Leads fs purpose links here (step :: rest) l
  | jump {links : Nat} {here l : Location} {step : String} {rest : List String} {target : Path}
    (inside : fs.HasDirectory here) (asked : Asked purpose here step rest)
    (link : fs.shape? (here ++ [step]) = some (.link target))
    (through : ¬ (purpose = .name ∧ rest = []))
    (onward : Leads fs purpose links (if target.isAbsolute then [] else here)
      (target.steps ++ rest) l) :
    Leads fs purpose (links + 1) here (step :: rest) l
  | named {here : Location} {step : String} {target : Path} (inside : fs.HasDirectory here)
    (asked : Asked purpose here step []) (link : fs.shape? (here ++ [step]) = some (.link target))
    (name : purpose = .name) : Leads fs purpose 0 here [step] (here ++ [step])

/-- The location that a path is followed from. -/
def startOf (fs : FileSystem) (p : Path) : Location :=
  if p.isAbsolute then [] else fs.workingDir

/-- A path that can be asked for. -/
structure IsRequest (purpose : Purpose) (p : Path) : Prop where
  notEmpty : p.text ≠ ""
  noNull : '\x00' ∉ p.text.toList
  short : purpose ≠ .resolve → p.size < maxPathSize

/-- Followed for a purpose, the steps of `p` lead to `l`, where something may be or not. -/
def Reaches (fs : FileSystem) (purpose : Purpose) (p : Path) (steps : List String)
    (l : Location) : Prop :=
  ∃ place, fs.locate purpose p steps = .ok place ∧ place.location = l

/-- Two file systems have the same links, and relative paths start at the same place. -/
structure SameLinks (fs fs' : FileSystem) : Prop where
  workingDir : fs'.workingDir = fs.workingDir
  links : ∀ l target, fs'.shape? l = some (.link target) ↔ fs.shape? l = some (.link target)

/-- What following a path says about a place is so. -/
def Shows (fs : FileSystem) : Place → Prop
  | .found location node => fs.node? location = some node
  | .vacant directory name => fs.HasDirectory directory ∧ fs.shape? (directory ++ [name]) = none ∧
      name ≠ "" ∧ name ≠ "." ∧ name ≠ ".."

end FileSystem

/-! ## 1. Following a path is the relation -/

namespace ResolutionLemmas

open FileSystem FileTreeLemmas

variable {fs : FileSystem} {purpose : Purpose}

/-- A way that the file system has. -/
def IsWay (fs : FileSystem) : Trail → Prop
  | [] => True
  | (name, n) :: rest => (fs.endOf rest).child? name = some n ∧ IsWay fs rest

theorem size_location (t : Trail) : t.location.size = t.size := by
  rw [Location.size, Trail.location, List.map_reverse, List.sum_reverse, List.map_map]
  rfl

theorem location_cons (name : String) (n : Node) (t : Trail) :
    Trail.location ((name, n) :: t) = t.location ++ [name] := by
  simp [Trail.location]

theorem location_tail (t : Trail) : Trail.location t.tail = t.location.dropLast := by
  cases t <;> simp [Trail.location]

variable {t here : Trail} {l : Location}

theorem isWay_tail (h : IsWay fs t) : IsWay fs t.tail := by
  cases t with
  | nil => exact h
  | cons entry rest => exact h.2

theorem node?_of_isWay (h : IsWay fs t) : fs.node? t.location = some (fs.endOf t) := by
  induction t with
  | nil => rfl
  | cons entry rest ih =>
    obtain ⟨name, n⟩ := entry
    have hrest := ih h.2
    rw [node?] at hrest
    rw [location_cons, node?, at?_append, hrest, Option.bind_some, at?_singleton]
    exact h.1

variable {access : Access} {entries : List (String × Node)} {links : Nat} {steps : List String}

/-- What a directory on the way has under a name. -/
theorem node?_step (h : IsWay fs t) (hend : fs.endOf t = .directory access entries)
    (step : String) : fs.node? (t.location ++ [step]) = entries.lookup step := by
  have hnode := node?_of_isWay h
  rw [node?] at hnode
  rw [node?, at?_append, hnode, Option.bind_some, at?_singleton, hend]
  rfl

theorem hasDirectory_of_endOf (h : IsWay fs t) (hend : fs.endOf t = .directory access entries) :
    fs.HasDirectory t.location :=
  ⟨access, entries.map (·.1), by rw [shape?_of_node? (node?_of_isWay h), hend]; rfl⟩

theorem endOf_of_hasDirectory (h : IsWay fs t) (hdir : fs.HasDirectory t.location) :
    ∃ access entries, fs.endOf t = .directory access entries := by
  obtain ⟨access, names, hshape⟩ := hdir
  obtain ⟨entries, hnode, -⟩ := node?_of_shape?_directory hshape
  rw [node?_of_isWay h] at hnode
  exact ⟨access, entries, Option.some.inj hnode⟩

theorem isWay_wayTo? (hhere : IsWay fs here) (h : fs.wayTo? here l = some t) :
    IsWay fs t ∧ t.location = here.location ++ l := by
  induction l generalizing here with
  | nil =>
    obtain rfl := Option.some.inj h
    exact ⟨hhere, by simp⟩
  | cons name rest ih =>
    simp only [wayTo?] at h
    split at h
    · next n hchild =>
      have hnext : IsWay fs ((name, n) :: here) := ⟨hchild, hhere⟩
      obtain ⟨hway, hlocation⟩ := ih hnext h
      exact ⟨hway, by rw [hlocation, location_cons, List.append_assoc, List.singleton_append]⟩
    · cases h

theorem wayTo?_isSome_iff (hhere : IsWay fs here) :
    (fs.wayTo? here l).isSome ↔ (fs.node? (here.location ++ l)).isSome := by
  induction l generalizing here with
  | nil => simp [wayTo?, node?_of_isWay hhere]
  | cons name rest ih =>
    have hnode := node?_of_isWay hhere
    rw [node?] at hnode
    simp only [wayTo?]
    split
    · next n hchild =>
      have hnext : IsWay fs ((name, n) :: here) := ⟨hchild, hhere⟩
      rw [ih hnext, location_cons, List.append_assoc, List.singleton_append]
    · next hchild =>
      rw [node?, at?_append, hnode, Option.bind_some]
      simp [Node.at?, hchild]

/-- The way to a location from the root is there if anything is. -/
theorem wayTo?_root (fs : FileSystem) (l : Location) :
    ((fs.wayTo? [] l).isSome ↔ (fs.shape? l).isSome) ∧
      ∀ t, fs.wayTo? [] l = some t → IsWay fs t ∧ t.location = l := by
  have hroot : IsWay fs [] := trivial
  refine ⟨?_, fun t ht => isWay_wayTo? hroot ht⟩
  rw [wayTo?_isSome_iff hroot, shape?, Option.isSome_map]
  rfl

/-- One step of a walk, whatever links are left. -/
theorem walk_cons (links : Nat) (here : Trail) (step : String) (rest : List String) :
    fs.walk purpose links here (step :: rest) =
      match fs.endOf here with
      | .directory _ entries =>
        if step = "" ∨ step = "." then fs.walk purpose links here rest
        else if step = ".." then fs.walk purpose links here.tail rest
        else if purpose = .write ∧ rest = [""] then .error .isDirectory
        else if isTooLong purpose here step then .error .nameTooLong
        else
          match entries.lookup step with
          | none => if rest = [] then .ok (.vacant here.location step) else .error .notFound
          | some (.link target) =>
            if purpose = .name ∧ rest = [] then
              .ok (.found (here.location ++ [step]) (.link target))
            else
              match links with
              | 0 => .error .tooManyLinks
              | links + 1 => fs.walk purpose links (if target.isAbsolute then [] else here)
                  (target.steps ++ rest)
          | some n => fs.walk purpose links ((step, n) :: here) rest
      | _ => .error .notDirectory := by
  cases links <;> rfl

theorem walk_nil (links : Nat) (here : Trail) :
    fs.walk purpose links here [] = .ok (.found here.location (fs.endOf here)) := by
  cases links <;> rfl

/-- A name is not too long and stands where it can be asked for. -/
theorem asked_iff {step : String} {rest : List String} :
    Asked purpose here.location step rest ↔
      (step ≠ "" ∧ step ≠ ".") ∧ step ≠ ".." ∧ ¬ (purpose = .write ∧ rest = [""]) ∧
        isTooLong purpose here step = false := by
  have hlong : isTooLong purpose here step = false ↔ step.utf8ByteSize ≤ maxNameSize ∧
      (purpose = .resolve → here.size + 1 + step.utf8ByteSize < maxPathSize) := by
    simp [isTooLong]
  rw [hlong]
  constructor
  · rintro ⟨⟨h1, h2, h3⟩, hwritten, hshort, hnear⟩
    rw [size_location] at hnear
    exact ⟨⟨h1, h2⟩, h3, hwritten, hshort, hnear⟩
  · rintro ⟨⟨h1, h2⟩, h3, hwritten, hshort, hnear⟩
    refine ⟨⟨h1, h2, h3⟩, hwritten, hshort, ?_⟩
    rwa [size_location]

variable {step : String} {rest : List String}

/-- A walk goes on only in a directory. -/
theorem endOf_of_walk (h : fs.walk purpose links here (step :: rest) ≠ .error .notDirectory) :
    ∃ access entries, fs.endOf here = .directory access entries := by
  rw [walk_cons] at h
  split at h
  · next access entries hend => exact ⟨access, entries, hend⟩
  · exact absurd rfl h

section Inside

variable (hend : fs.endOf here = .directory access entries)

include hend

theorem walk_stay (dot : step = "" ∨ step = ".") :
    fs.walk purpose links here (step :: rest) = fs.walk purpose links here rest := by
  rw [walk_cons, hend]
  exact if_pos dot

theorem walk_up :
    fs.walk purpose links here (".." :: rest) = fs.walk purpose links here.tail rest := by
  rw [walk_cons, hend]
  simp

/-- A name is looked up in the directory. -/
theorem walk_asked (asked : Asked purpose here.location step rest) :
    fs.walk purpose links here (step :: rest) =
      match entries.lookup step with
      | none => if rest = [] then .ok (.vacant here.location step) else .error .notFound
      | some (.link target) =>
        if purpose = .name ∧ rest = [] then .ok (.found (here.location ++ [step]) (.link target))
        else
          match links with
          | 0 => .error .tooManyLinks
          | links + 1 => fs.walk purpose links (if target.isAbsolute then [] else here)
              (target.steps ++ rest)
      | some n => fs.walk purpose links ((step, n) :: here) rest := by
  obtain ⟨⟨h1, h2⟩, hup, hwritten, hshort⟩ := asked_iff.1 asked
  rw [walk_cons, hend]
  simp only [h1, h2, or_self, if_false, hup, if_neg hwritten, hshort, Bool.false_eq_true]

/-- In a directory a step stays, goes up, asks for a name, or is refused. -/
theorem step_cases (purpose : Purpose) (step : String) (rest : List String) :
    (step = "" ∨ step = ".") ∨ step = ".." ∨ Asked purpose here.location step rest ∨
      ∃ e, (e = .isDirectory ∨ e = .nameTooLong) ∧
        ∀ links, fs.walk purpose links here (step :: rest) = .error e := by
  by_cases hdot : step = "" ∨ step = "."
  · exact .inl hdot
  by_cases hup : step = ".."
  · exact .inr (.inl hup)
  simp only [walk_cons, hend, if_neg hdot, if_neg hup]
  by_cases hwritten : purpose = .write ∧ rest = [""]
  · exact .inr (.inr (.inr ⟨_, .inl rfl, fun _ => if_pos hwritten⟩))
  simp only [if_neg hwritten]
  cases hlong : isTooLong purpose here step with
  | true => exact .inr (.inr (.inr ⟨_, .inr rfl, fun _ => rfl⟩))
  | false => exact .inr (.inr (.inl (asked_iff.2 ⟨not_or.1 hdot, hup, hwritten, hlong⟩)))

end Inside

theorem isWay_jump (hhere : IsWay fs here) (target : Path) :
    IsWay fs (if target.isAbsolute then [] else here) := by
  split
  · exact trivial
  · exact hhere

/-- What a walk ends at is so, and the relation holds of it. The induction is on the links that are
left and, for as many links, on the steps. -/
theorem leads_of_walk {place : Place} (hhere : IsWay fs here)
    (h : fs.walk purpose links here steps = .ok place) :
    fs.Shows place ∧ ∃ n ≤ links, fs.Leads purpose n here.location steps place.location := by
  induction links using Nat.strongRecOn generalizing here steps place with
  | _ links outer =>
  induction steps generalizing here with
  | nil =>
    rw [walk_nil] at h
    obtain rfl := Except.ok.inj h
    exact ⟨node?_of_isWay hhere, 0, Nat.zero_le _, .arrive⟩
  | cons step rest ih =>
    obtain ⟨access, entries, hend⟩ := endOf_of_walk (by rw [h]; simp)
    have inside := hasDirectory_of_endOf hhere hend
    rcases step_cases hend purpose step rest with hdot | rfl | asked | ⟨e, -, hrefused⟩
    · rw [walk_stay hend hdot] at h
      obtain ⟨hshows, n, hn, hleads⟩ := ih hhere h
      exact ⟨hshows, n, hn, .stay inside hdot hleads⟩
    · rw [walk_up hend] at h
      obtain ⟨hshows, n, hn, hleads⟩ := ih (isWay_tail hhere) h
      rw [location_tail] at hleads
      exact ⟨hshows, n, hn, .up inside hleads⟩
    · have hshape : fs.shape? (here.location ++ [step]) = (entries.lookup step).map Node.shape := by
        rw [shape?, node?_step hhere hend]
      rw [walk_asked hend asked] at h
      split at h
      · next hlookup =>
        rw [hlookup] at hshape
        split at h
        · next hrest =>
          subst hrest
          obtain rfl := Except.ok.inj h
          refine ⟨⟨inside, hshape, asked.named⟩, 0, Nat.zero_le _, ?_⟩
          refine .enter inside asked ?_ (fun _ => rfl) .arrive
          rintro ⟨target, hlink⟩
          cases hshape.symm.trans hlink
        · cases h
      · next target hlookup =>
        rw [hlookup] at hshape
        split at h
        · next hname =>
          obtain ⟨rfl, rfl⟩ := hname
          obtain rfl := Except.ok.inj h
          exact ⟨by rw [Shows, node?_step hhere hend, hlookup], 0, Nat.zero_le _,
            .named inside asked hshape rfl⟩
        · next hthrough =>
          split at h
          · cases h
          · next fewer =>
            obtain ⟨hshows, n, hn, hleads⟩ :=
              outer fewer (Nat.lt_succ_self _) (isWay_jump hhere target) h
            rw [apply_ite Trail.location] at hleads
            exact ⟨hshows, n + 1, Nat.succ_le_succ hn, .jump inside asked hshape hthrough hleads⟩
      · next n hnolink hlookup =>
        rw [hlookup] at hshape
        have hway : IsWay fs ((step, n) :: here) := ⟨by rw [hend]; exact hlookup, hhere⟩
        obtain ⟨hshows, m, hm, hleads⟩ := ih hway h
        rw [location_cons] at hleads
        refine ⟨hshows, m, hm, .enter inside asked ?_ ?_ hleads⟩
        · rintro ⟨target, hlink⟩
          rw [hshape] at hlink
          cases n <;> cases hlink
          exact hnolink _ rfl
        · intro hnone
          cases hshape.symm.trans hnone
    · rw [hrefused] at h
      cases h

/-- Where the relation leads, a walk with as many links ends. -/
theorem walk_of_leads {n : Nat} {start : Location} (h : fs.Leads purpose n start steps l)
    (hhere : IsWay fs here) (hstart : here.location = start) (hn : n ≤ links) :
    ∃ place, fs.walk purpose links here steps = .ok place ∧ place.location = l := by
  induction h generalizing here links with
  | arrive => exact ⟨_, walk_nil links here, hstart⟩
  | stay inside dot _ ih =>
    subst hstart
    obtain ⟨access, entries, hend⟩ := endOf_of_hasDirectory hhere inside
    rw [walk_stay hend dot]
    exact ih hhere rfl hn
  | up inside _ ih =>
    subst hstart
    obtain ⟨access, entries, hend⟩ := endOf_of_hasDirectory hhere inside
    rw [walk_up hend]
    exact ih (isWay_tail hhere) (location_tail here) hn
  | @enter n _ _ step rest inside asked noLink last onward ih =>
    subst hstart
    obtain ⟨access, entries, hend⟩ := endOf_of_hasDirectory hhere inside
    rw [walk_asked hend asked]
    rw [shape?, node?_step hhere hend] at last
    unfold HasLink at noLink
    rw [shape?, node?_step hhere hend] at noLink
    cases hlookup : entries.lookup step with
    | none =>
      rw [hlookup] at last
      obtain rfl := last rfl
      cases onward
      exact ⟨_, rfl, rfl⟩
    | some m =>
      have hway : IsWay fs ((step, m) :: here) := ⟨by rw [hend]; exact hlookup, hhere⟩
      obtain ⟨place, hwalk, hplace⟩ := ih hway (location_cons step m here) hn
      cases m with
      | link target => exact absurd ⟨target, by rw [hlookup]; rfl⟩ noLink
      | file => exact ⟨place, hwalk, hplace⟩
      | directory w others => exact ⟨place, hwalk, hplace⟩
  | @jump n _ _ step rest target inside asked link through onward ih =>
    subst hstart
    obtain ⟨access, entries, hend⟩ := endOf_of_hasDirectory hhere inside
    have hlookup := (node?_step hhere hend step).symm.trans (node?_of_shape?_link link)
    obtain ⟨fewer, rfl⟩ : ∃ fewer, links = fewer + 1 := ⟨links - 1, by omega⟩
    simp only [walk_asked hend asked, hlookup, if_neg through]
    exact ih (isWay_jump hhere target) (by split <;> rfl) (Nat.le_of_succ_le_succ hn)
  | @named _ step target inside asked link name =>
    subst hstart
    obtain ⟨access, entries, hend⟩ := endOf_of_hasDirectory hhere inside
    have hlookup := (node?_step hhere hend step).symm.trans (node?_of_shape?_link link)
    refine ⟨.found (here.location ++ [step]) (.link target), ?_, rfl⟩
    simp only [walk_asked hend asked, hlookup]
    exact if_pos ⟨name, trivial⟩

end ResolutionLemmas

open ResolutionLemmas

namespace FileSystem

variable {fs : FileSystem} {purpose : Purpose} {steps : List String} {l : Location} {p : Path}
  {fs' : FileSystem} {n : Nat} {here : Location}

/-- A path leads to a location if it can be asked for, starts somewhere and its steps lead there. -/
theorem reaches_iff :
    fs.Reaches purpose p steps l ↔ IsRequest purpose p ∧ (fs.shape? (fs.startOf p)).isSome ∧
      ∃ n ≤ maxLinks, fs.Leads purpose n (fs.startOf p) steps l := by
  obtain ⟨hsome, hway⟩ := wayTo?_root fs (fs.startOf p)
  constructor
  · rintro ⟨place, h, rfl⟩
    unfold locate at h
    split at h
    · cases h
    next hempty =>
    split at h
    · cases h
    next hnull =>
    split at h
    · cases h
    next hlong =>
    split at h
    case h_2 => cases h
    next start hstart =>
    obtain ⟨hwayStart, hlocation⟩ := hway start hstart
    obtain ⟨n, hn, hleads⟩ := (leads_of_walk hwayStart h).2
    rw [hlocation] at hleads
    exact ⟨⟨by simpa using hempty, by simpa using hnull, by simpa using hlong⟩,
      hsome.1 (Option.isSome_of_eq_some hstart), n, hn, hleads⟩
  · rintro ⟨hrequest, hstart, n, hn, hleads⟩
    obtain ⟨start, hstart⟩ := Option.isSome_iff_exists.1 (hsome.2 hstart)
    obtain ⟨hwayStart, hlocation⟩ := hway start hstart
    obtain ⟨place, hwalk, hplace⟩ := walk_of_leads hleads hwayStart hlocation hn
    refine ⟨place, ?_, hplace⟩
    have hempty : p.text.isEmpty = false := by simpa using hrequest.notEmpty
    have hnull : p.text.toList.contains '\x00' = false := by simpa using hrequest.noNull
    have hlong : ¬ (purpose ≠ .resolve ∧ maxPathSize ≤ p.size) := by
      simpa using hrequest.short
    rw [startOf] at hstart
    rw [locate, hempty, hnull, if_neg (by simp), if_neg (by simp), if_neg hlong, hstart]
    exact hwalk

theorem shows_of_locate {place : Place} (h : fs.locate purpose p steps = .ok place) :
    fs.Shows place := by
  unfold locate at h
  split at h
  · cases h
  split at h
  · cases h
  split at h
  · cases h
  split at h
  · next start hstart => exact (leads_of_walk ((wayTo?_root fs _).2 start hstart).1 h).1
  · cases h

/-- A path is found if it leads to something. -/
theorem find_eq_ok_iff {n : Node} :
    fs.find p = .ok n ↔ ∃ l, fs.Reaches .reach p p.steps l ∧ fs.node? l = some n := by
  unfold find Reaches
  cases h : fs.locate .reach p p.steps with
  | error e => simp
  | ok place =>
    have hshows := shows_of_locate h
    cases place with
    | found l m =>
      have hnode : fs.node? l = some m := hshows
      simp [Place.location, hnode]
    | vacant d name =>
      have hnone : fs.node? (d ++ [name]) = none := Option.map_eq_none_iff.1 hshows.2.1
      simp [Place.location, hnone]

theorem canonicalize_eq_ok_iff :
    fs.canonicalize p = .ok l ↔ fs.Reaches .resolve p p.steps l ∧ (fs.shape? l).isSome := by
  unfold canonicalize Reaches
  cases h : fs.locate .resolve p p.steps with
  | error e => simp
  | ok place =>
    have hshows := shows_of_locate h
    cases place with
    | found m n =>
      have hnode : fs.node? m = some n := hshows
      have hsome : (fs.shape? m).isSome := by simp [shape?, hnode]
      constructor
      · intro heq
        obtain rfl := Except.ok.inj heq
        exact ⟨⟨_, rfl, rfl⟩, hsome⟩
      · rintro ⟨⟨place, heq, rfl⟩, -⟩
        obtain rfl := Except.ok.inj heq
        rfl
    | vacant d name =>
      refine ⟨fun heq => (by cases heq), ?_⟩
      rintro ⟨⟨place, heq, rfl⟩, hsome⟩
      obtain rfl := Except.ok.inj heq
      rw [Place.location, hshows.2.1] at hsome
      cases hsome

theorem isDirectory_iff :
    fs.isDirectory p = true ↔ ∃ l, fs.Reaches .reach p p.steps l ∧ fs.HasDirectory l := by
  have hfind : fs.isDirectory p = true ↔
      ∃ access entries, fs.find p = .ok (.directory access entries) := by
    unfold isDirectory
    split <;> simp_all
  rw [hfind]
  constructor
  · rintro ⟨access, entries, h⟩
    obtain ⟨l, hl, hnode⟩ := find_eq_ok_iff.1 h
    exact ⟨l, hl, access, _, shape?_of_node? hnode⟩
  · rintro ⟨l, hl, access, names, hshape⟩
    obtain ⟨entries, hnode, -⟩ := node?_of_shape?_directory hshape
    exact ⟨access, entries, find_eq_ok_iff.2 ⟨l, hl, hnode⟩⟩

theorem read_eq_ok_iff {contents : ByteArray} :
    fs.read p = .ok contents ↔
      ∃ l, fs.Reaches .reach p p.steps l ∧ fs.contents? l = some contents := by
  have hread : fs.read p = .ok contents ↔
      ∃ access, fs.find p = .ok (.file access contents) ∧ access ≠ .none := by
    unfold read
    cases fs.find p with
    | error e => simp [bind, Except.bind]
    | ok n => simpa [bind, Except.bind] using contentsOf_eq_ok_iff
  simp only [hread, find_eq_ok_iff, contents?_eq_some_iff]
  constructor
  · rintro ⟨access, ⟨l, hl, hnode⟩, hreadable⟩
    exact ⟨l, hl, access, shape?_of_node? hnode, hreadable⟩
  · rintro ⟨l, hl, access, hshape, hreadable⟩
    exact ⟨access, ⟨l, hl, node?_of_shape?_file hshape⟩, hreadable⟩

/-! ## 2. Paths in a file system that grows -/

theorem HasDirectory.grows (h : fs.Grows fs') (hdir : fs.HasDirectory l) : fs'.HasDirectory l := by
  obtain ⟨access, names, hshape⟩ := hdir
  obtain ⟨more, hmore⟩ := h.directory hshape
  exact ⟨access, names ++ more, hmore⟩

theorem Grows.isSome (h : fs.Grows fs') (hsome : (fs.shape? l).isSome) : (fs'.shape? l).isSome := by
  have hl := h.shapes l
  generalize fs.shape? l = before at hl hsome
  generalize fs'.shape? l = after at hl
  cases hl <;> simp_all

theorem Grows.sameLinks (h : fs.Grows fs') : fs.SameLinks fs' :=
  ⟨h.workingDir, h.link_iff⟩

theorem SameLinks.symm (h : fs.SameLinks fs') : fs'.SameLinks fs :=
  ⟨h.workingDir.symm, fun l target => (h.links l target).symm⟩

theorem SameLinks.trans {fs'' : FileSystem} (h : fs.SameLinks fs') (h' : fs'.SameLinks fs'') :
    fs.SameLinks fs'' :=
  ⟨h'.workingDir.trans h.workingDir, fun l target => (h'.links l target).trans (h.links l target)⟩

theorem SameLinks.hasLink_iff (h : fs.SameLinks fs') (l : Location) :
    fs'.HasLink l ↔ fs.HasLink l :=
  exists_congr fun target => h.links l target

theorem SameLinks.startOf_eq (h : fs.SameLinks fs') (p : Path) : fs'.startOf p = fs.startOf p := by
  rw [startOf, startOf, h.workingDir]

/-- Steps go on only in a directory. -/
theorem Leads.inside (h : fs.Leads purpose n here steps l) (hsteps : steps ≠ []) :
    fs.HasDirectory here := by
  cases h with
  | arrive => exact absurd rfl hsteps
  | stay inside => exact inside
  | up inside => exact inside
  | enter inside => exact inside
  | jump inside => exact inside
  | named inside => exact inside

/-- Steps go through directories and links, so they lead to the same place where these are there
too. What is missing is entered only in last place, since steps do not go on from it. -/
theorem Leads.carry (hdirs : ∀ l, fs.HasDirectory l → fs'.HasDirectory l)
    (hlinks : fs.SameLinks fs') (h : fs.Leads purpose n here steps l) :
    fs'.Leads purpose n here steps l := by
  induction h with
  | arrive => exact .arrive
  | stay inside dot _ ih => exact .stay (hdirs _ inside) dot ih
  | up inside _ ih => exact .up (hdirs _ inside) ih
  | enter inside asked noLink last onward ih =>
    refine .enter (hdirs _ inside) asked (by rwa [hlinks.hasLink_iff]) (fun hnone => ?_) ih
    by_contra hrest
    obtain ⟨access, names, hshape⟩ := hdirs _ (onward.inside hrest)
    cases hnone.symm.trans hshape
  | jump inside asked link through _ ih =>
    exact .jump (hdirs _ inside) asked ((hlinks.links _ _).2 link) through ih
  | named inside asked link name =>
    exact .named (hdirs _ inside) asked ((hlinks.links _ _).2 link) name

theorem Reaches.grows (h : fs.Grows fs') (hreaches : fs.Reaches purpose p steps l) :
    fs'.Reaches purpose p steps l := by
  obtain ⟨hrequest, hstart, n, hn, hleads⟩ := reaches_iff.1 hreaches
  rw [← h.sameLinks.startOf_eq p] at hstart hleads
  exact reaches_iff.2
    ⟨hrequest, h.isSome hstart, n, hn, hleads.carry (fun _ => .grows h) h.sameLinks⟩

/-! ## 3. One place for each path -/

variable {purpose' : Purpose} {l' : Location}

/-- A path leads to at most one place, also in two file systems with the same links, and also if it
is followed for different purposes, as long as links in last place are followed. -/
theorem Leads.unique (h : fs.SameLinks fs') (hname : purpose ≠ .name) (hname' : purpose' ≠ .name)
    {n' : Nat} (hleads : fs.Leads purpose n here steps l)
    (hleads' : fs'.Leads purpose' n' here steps l') : l = l' := by
  induction hleads generalizing n' l' with
  | arrive =>
    cases hleads'
    rfl
  | stay inside dot _ ih =>
    cases hleads' with
    | stay _ _ onward => exact ih onward
    | up => simp at dot
    | enter _ asked => exact absurd dot (not_or.2 ⟨asked.named.1, asked.named.2.1⟩)
    | jump _ asked => exact absurd dot (not_or.2 ⟨asked.named.1, asked.named.2.1⟩)
    | named _ _ _ name => exact absurd name hname'
  | up inside _ ih =>
    cases hleads' with
    | stay _ dot => simp at dot
    | up _ onward => exact ih onward
    | enter _ asked => exact absurd rfl asked.named.2.2
    | jump _ asked => exact absurd rfl asked.named.2.2
    | named _ _ _ name => exact absurd name hname'
  | enter inside asked noLink last _ ih =>
    cases hleads' with
    | stay _ dot => exact absurd dot (not_or.2 ⟨asked.named.1, asked.named.2.1⟩)
    | up => exact absurd rfl asked.named.2.2
    | enter _ _ _ _ onward => exact ih onward
    | jump _ _ link => exact absurd ⟨_, (h.links _ _).1 link⟩ noLink
    | named _ _ _ name => exact absurd name hname'
  | jump inside asked link through _ ih =>
    cases hleads' with
    | stay _ dot => exact absurd dot (not_or.2 ⟨asked.named.1, asked.named.2.1⟩)
    | up => exact absurd rfl asked.named.2.2
    | enter _ _ noLink => exact absurd ⟨_, (h.links _ _).2 link⟩ noLink
    | jump _ _ link' _ onward =>
      rw [h.links, link, Option.some.injEq, Shape.link.injEq] at link'
      subst link'
      exact ih onward
    | named _ _ _ name => exact absurd name hname'
  | named _ _ _ name => exact absurd name hname

theorem Reaches.unique (h : fs.SameLinks fs') (hname : purpose ≠ .name) (hname' : purpose' ≠ .name)
    (hl : fs.Reaches purpose p steps l) (hl' : fs'.Reaches purpose' p steps l') : l = l' := by
  obtain ⟨-, -, n, -, hleads⟩ := reaches_iff.1 hl
  obtain ⟨-, -, n', -, hleads'⟩ := reaches_iff.1 hl'
  rw [h.startOf_eq] at hleads'
  exact hleads.unique h hname hname' hleads'

/-- To reach or to name something, a name can be asked for whatever comes after it. -/
theorem Asked.anywhere {step : String} {rest rest' : List String}
    (h : Asked purpose here step rest) (hwrite : purpose' ≠ .write := by decide)
    (hresolve : purpose' ≠ .resolve := by decide) : Asked purpose' here step rest' :=
  ⟨h.named, fun hwritten => hwrite hwritten.1, h.short, fun heq => absurd heq hresolve⟩

/-- A path that can be written to can also be read. -/
theorem Leads.reach_of_write (h : fs.Leads .write n here steps l) :
    fs.Leads .reach n here steps l := by
  induction h with
  | arrive => exact .arrive
  | stay inside dot _ ih => exact .stay inside dot ih
  | up inside _ ih => exact .up inside ih
  | enter inside asked noLink last _ ih => exact .enter inside asked.anywhere noLink last ih
  | jump inside asked link _ _ ih => exact .jump inside asked.anywhere link (by simp) ih
  | named _ _ _ name => cases name

theorem Reaches.reach_of_write (h : fs.Reaches .write p steps l) : fs.Reaches .reach p steps l := by
  obtain ⟨hrequest, hstart, n, hn, hleads⟩ := reaches_iff.1 h
  exact reaches_iff.2 ⟨⟨hrequest.notEmpty, hrequest.noNull, fun _ => hrequest.short (by simp)⟩,
    hstart, n, hn, hleads.reach_of_write⟩

/-! ## 4. Names in a directory -/

/-- A slash may follow the path of a directory. -/
theorem Leads.slash (h : fs.Leads .reach n here steps l) (hl : fs.HasDirectory l) :
    fs.Leads .reach n here (steps ++ [""]) l := by
  induction h with
  | arrive => exact .stay hl (Or.inl rfl) .arrive
  | stay inside dot _ ih => exact .stay inside dot (ih hl)
  | up inside _ ih => exact .up inside (ih hl)
  | enter inside asked noLink last onward ih =>
    refine .enter inside asked.anywhere noLink (fun hnone => ?_) (ih hl)
    -- Nothing is there, so it came last; but a directory came last.
    obtain rfl := last hnone
    cases onward
    obtain ⟨access, names, hshape⟩ := hl
    rw [hnone] at hshape
    cases hshape
  | jump inside asked link _ _ ih =>
    have honward := ih hl
    rw [List.append_assoc] at honward
    exact .jump inside asked.anywhere link (by simp) honward
  | named _ _ _ name => cases name

/-- Steps that lead somewhere do so in two parts, wherever they are cut. -/
theorem Leads.split {xs ys : List String} (h : fs.Leads .reach n here steps l)
    (hsteps : steps = xs ++ ys) :
    ∃ n₁ n₂ m, n = n₁ + n₂ ∧ fs.Leads .reach n₁ here xs m ∧ fs.Leads .reach n₂ m ys l := by
  induction h generalizing xs with
  | arrive =>
    obtain ⟨rfl, rfl⟩ := List.append_eq_nil_iff.1 hsteps.symm
    exact ⟨0, 0, _, rfl, .arrive, .arrive⟩
  | @stay n here l step rest inside dot onward ih =>
    cases xs with
    | nil =>
      obtain rfl : ys = step :: rest := hsteps.symm
      exact ⟨0, n, here, (Nat.zero_add n).symm, .arrive, .stay inside dot onward⟩
    | cons x xs =>
      obtain ⟨rfl, hrest⟩ := List.cons.inj hsteps
      obtain ⟨n₁, n₂, m, hn, hfirst, hsecond⟩ := ih hrest
      exact ⟨n₁, n₂, m, hn, .stay inside dot hfirst, hsecond⟩
  | @up n here l rest inside onward ih =>
    cases xs with
    | nil =>
      obtain rfl : ys = ".." :: rest := hsteps.symm
      exact ⟨0, n, here, (Nat.zero_add n).symm, .arrive, .up inside onward⟩
    | cons x xs =>
      obtain ⟨rfl, hrest⟩ := List.cons.inj hsteps
      obtain ⟨n₁, n₂, m, hn, hfirst, hsecond⟩ := ih hrest
      exact ⟨n₁, n₂, m, hn, .up inside hfirst, hsecond⟩
  | @enter n here l step rest inside asked noLink last onward ih =>
    cases xs with
    | nil =>
      obtain rfl : ys = step :: rest := hsteps.symm
      exact ⟨0, n, here, (Nat.zero_add n).symm, .arrive, .enter inside asked noLink last onward⟩
    | cons x xs =>
      obtain ⟨rfl, hrest⟩ := List.cons.inj hsteps
      obtain ⟨n₁, n₂, m, hn, hfirst, hsecond⟩ := ih hrest
      refine ⟨n₁, n₂, m, hn, .enter inside asked.anywhere noLink (fun hnone => ?_) hfirst, hsecond⟩
      exact (List.append_eq_nil_iff.1 (hrest.symm.trans (last hnone))).1
  | @jump n here l step rest target inside asked link through onward ih =>
    cases xs with
    | nil =>
      obtain rfl : ys = step :: rest := hsteps.symm
      exact ⟨0, n + 1, here, (Nat.zero_add _).symm, .arrive, .jump inside asked link through onward⟩
    | cons x xs =>
      obtain ⟨rfl, hrest⟩ := List.cons.inj hsteps
      have honward : target.steps ++ rest = (target.steps ++ xs) ++ ys := by simp [hrest]
      obtain ⟨n₁, n₂, m, hn, hfirst, hsecond⟩ := ih honward
      exact ⟨n₁ + 1, n₂, m, by omega, .jump inside asked.anywhere link (by simp) hfirst, hsecond⟩
  | named _ _ _ name => cases name

/-- A name that no link has leads to its place in the directory. -/
theorem Leads.child {d : Location} {name : String} (hname : IsPlainName name)
    (hlink : ¬ fs.HasLink (d ++ [name])) (h : fs.Leads .reach n d [name] l) : l = d ++ [name] := by
  cases h with
  | stay _ dot => exact absurd dot (not_or.2 ⟨hname.1, hname.2.1⟩)
  | up => exact absurd rfl hname.2.2.1
  | enter _ _ _ _ onward =>
    cases onward
    rfl
  | jump _ _ link => exact absurd ⟨_, link⟩ hlink
  | named _ _ _ name => cases name

end FileSystem

namespace ResolutionLemmas

open FileSystem

variable {name : String} (hname : IsPlainName name)

include hname

theorem isAbsolute_name : (Path.mk name).isAbsolute = false := by
  simp only [Path.isAbsolute, decide_eq_false_iff_not]
  intro hhead
  exact hname.2.2.2 (List.mem_of_head? hhead)

theorem pieces_name : (Path.mk name).pieces = [name] := by
  have hne : name.toList ≠ [] := by simpa using hname.1
  have hsplit := OutputPathsLemmas.split_append_of_not_mem hname.2.2.2 []
  simp only [List.append_nil, Text.split, List.headD_cons, List.tail_cons] at hsplit
  simp [Path.pieces, Text.words, hsplit, hne]

theorem text_join (p : Path) :
    (p / name).text = p.text ++ name ∨ (p / name).text = p.text ++ "/" ++ name := by
  show (p.join ⟨name⟩).text = _ ∨ (p.join ⟨name⟩).text = _
  rw [Path.join, if_neg (by simp [isAbsolute_name hname])]
  split
  · exact Or.inl rfl
  · exact Or.inr rfl

theorem steps_join (p : Path) : (p / name).steps = p.pieces ++ [name] := by
  have hpieces : (p / name).pieces = p.pieces ++ [name] := by
    rw [← pieces_name hname]
    exact Path.pieces_join p (isAbsolute_name hname)
  have hslash : (p / name).endsWithSlash = false := by
    have hne : name.toList ≠ [] := by simpa using hname.1
    have hlast : (p / name).text.toList.getLast? = name.toList.getLast? := by
      rcases text_join hname p with htext | htext <;>
        rw [htext, String.toList_append, List.getLast?_append_of_ne_nil _ hne]
    rw [Path.endsWithSlash, hlast, decide_eq_false_iff_not]
    intro hmem
    exact hname.2.2.2 (List.mem_of_getLast? hmem)
  rw [Path.steps, if_neg (by simp [hslash]), hpieces]

theorem isRequest_of_join {purpose : Purpose} {p : Path} (hp : p.text ≠ "")
    (h : IsRequest purpose (p / name)) : IsRequest purpose p := by
  refine ⟨hp, fun hnull => h.noNull ?_, fun hpurpose => Nat.lt_of_le_of_lt ?_ (h.short hpurpose)⟩
  · rcases text_join hname p with htext | htext <;> simp [htext, hnull]
  · rcases text_join hname p with htext | htext <;>
      simp [Path.size, htext, String.utf8ByteSize_append, Nat.add_assoc]

theorem startOf_join (fs : FileSystem) (p : Path) : fs.startOf (p / name) = fs.startOf p := by
  have habs : (p / name).isAbsolute = p.isAbsolute :=
    Path.isAbsolute_join_of_relative p (isAbsolute_name hname)
  rw [startOf, startOf, habs]

end ResolutionLemmas

namespace FileSystem

variable {fs : FileSystem} {p : Path} {l : Location} {name : String} {d : Location}

/-- A name behind a path is looked up in the directory that the path leads to. -/
theorem Reaches.parent (hp : p.text ≠ "") (hname : IsPlainName name)
    (h : fs.Reaches .reach (p / name) (p / name).steps l) :
    ∃ d n, fs.Reaches .reach p p.steps d ∧ fs.HasDirectory d ∧ fs.Leads .reach n d [name] l := by
  obtain ⟨hrequest, hstart, n, hn, hleads⟩ := reaches_iff.1 h
  rw [startOf_join hname] at hstart hleads
  obtain ⟨n₁, n₂, d, hsum, hfirst, hsecond⟩ := hleads.split (steps_join hname p)
  have hdir : fs.HasDirectory d := by cases hsecond <;> assumption
  refine ⟨d, n₂, reaches_iff.2 ⟨isRequest_of_join hname hp hrequest, hstart, n₁, by omega, ?_⟩,
    hdir, hsecond⟩
  unfold Path.steps
  split
  · exact hfirst.slash hdir
  · exact hfirst

/-- A path with a plain name behind it leads to the place that the name has in the directory. -/
theorem Reaches.child (hd : fs.Reaches .reach p p.steps d) (hname : IsPlainName name)
    (hlink : ¬ fs.HasLink (d ++ [name])) (h : fs.Reaches .reach (p / name) (p / name).steps l) :
    l = d ++ [name] := by
  obtain ⟨d', n, hd', -, hleads⟩ := h.parent (reaches_iff.1 hd).1.notEmpty hname
  obtain rfl := hd.unique (Grows.refl fs).sameLinks (by simp) (by simp) hd'
  exact hleads.child hname hlink

/-- Where no links are, plain names behind a path lead straight down. -/
theorem Reaches.below (hd : fs.Reaches .reach p p.steps d)
    (hlinks : ∀ k, k ≠ [] → ¬ fs.HasLink (d ++ k)) {names : List String}
    (hnames : ∀ name ∈ names, IsPlainName name)
    (h : fs.Reaches .reach (names.foldl (· / ·) p) (names.foldl (· / ·) p).steps l) :
    l = d ++ names := by
  induction names using List.reverseRecOn generalizing l with
  | nil =>
    rw [List.append_nil]
    exact (hd.unique (Grows.refl fs).sameLinks (by simp) (by simp) h).symm
  | append_singleton names name ih =>
    rw [List.foldl_append, List.foldl_cons, List.foldl_nil] at h
    have hname := hnames name (by simp)
    have hfront : ∀ other ∈ names, IsPlainName other :=
      fun other hother => hnames other (by simp [hother])
    have htext : (names.foldl (· / ·) p).text ≠ "" := by
      cases names using List.reverseRecOn with
      | nil => exact (reaches_iff.1 hd).1.notEmpty
      | append_singleton front last =>
        rw [List.foldl_append, List.foldl_cons, List.foldl_nil]
        have hlast := hfront last (by simp)
        intro hempty
        rcases text_join hlast (front.foldl (· / ·) p) with htext | htext
        · rw [htext, String.append_eq_empty_iff] at hempty
          exact hlast.1 hempty.2
        · rw [htext, String.append_eq_empty_iff] at hempty
          exact hlast.1 hempty.2
    obtain ⟨m, n, hm, -, hleads⟩ := h.parent htext hname
    obtain rfl := ih hfront hm
    rw [← List.append_assoc]
    refine hleads.child hname ?_
    rw [List.append_assoc]
    exact hlinks _ (by simp)

end FileSystem

end SchemaGen
