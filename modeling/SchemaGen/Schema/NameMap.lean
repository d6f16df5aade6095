/-!
# Maps from names

A map holds one value for each of some names, in the order of the names.
-/

namespace SchemaGen

/-- Values by name. -/
@[ext] structure NameMap (α : Type) where
  entries : List (String × α)
  ordered : entries.Pairwise fun e e' => e.1 < e'.1
deriving DecidableEq, Repr

namespace NameMap

variable {α : Type}

/-- The map without names. -/
def empty : NameMap α :=
  ⟨[], .nil⟩

/-- The value of `name`. -/
def get? (m : NameMap α) (name : String) : Option α :=
  m.entries.lookup name

/-- The entries with `a` for `name`, in the place of what was there for it. -/
def put (name : String) (a : α) : List (String × α) → List (String × α)
  | [] => [(name, a)]
  | e :: rest =>
    if name < e.1 then (name, a) :: e :: rest
    else if e.1 < name then e :: put name a rest
    else (name, a) :: rest

theorem mem_put {name : String} {a : α} {entries : List (String × α)} {e : String × α}
    (h : e ∈ put name a entries) : e = (name, a) ∨ e ∈ entries := by
  induction entries with
  | nil => exact .inl (List.mem_singleton.1 h)
  | cons first rest ih =>
    unfold put at h
    split at h
    · exact List.mem_cons.1 h
    split at h
    · rcases List.mem_cons.1 h with rfl | h
      · exact .inr List.mem_cons_self
      · exact (ih h).imp_right (List.mem_cons_of_mem first)
    · exact (List.mem_cons.1 h).imp_right (List.mem_cons_of_mem first)

theorem ordered_put {name : String} {a : α} {entries : List (String × α)}
    (h : entries.Pairwise fun e e' => e.1 < e'.1) :
    (put name a entries).Pairwise fun e e' => e.1 < e'.1 := by
  induction entries with
  | nil => exact List.pairwise_singleton ..
  | cons first rest ih =>
    obtain ⟨hfirst, hrest⟩ := List.pairwise_cons.1 h
    unfold put
    split
    · next hlt =>
      refine List.pairwise_cons.2 ⟨fun e he => ?_, h⟩
      rcases List.mem_cons.1 he with rfl | he
      · exact hlt
      · exact String.lt_trans hlt (hfirst e he)
    next hge =>
    split
    · next hgt =>
      refine List.pairwise_cons.2 ⟨fun e he => ?_, ih hrest⟩
      rcases mem_put he with rfl | he
      · exact hgt
      · exact hfirst e he
    · next hle =>
      have heq : first.1 = name := String.le_antisymm hge hle
      exact List.pairwise_cons.2 ⟨fun e he => heq ▸ hfirst e he, hrest⟩

/-- The map with `a` for `name`. -/
def insert (m : NameMap α) (name : String) (a : α) : NameMap α :=
  ⟨put name a m.entries, ordered_put m.ordered⟩

theorem lookup_cons (name : String) (first : String × α) (rest : List (String × α)) :
    (first :: rest).lookup name = if name = first.1 then some first.2 else rest.lookup name := by
  rw [List.lookup_cons]
  by_cases h : name = first.1
  · rw [if_pos h, beq_iff_eq.2 h]
  · rw [if_neg h, beq_eq_false_iff_ne.2 h]

theorem lookup_put (name other : String) (a : α) (entries : List (String × α)) :
    (put name a entries).lookup other = if other = name then some a else entries.lookup other := by
  induction entries with
  | nil => exact lookup_cons other (name, a) []
  | cons first rest ih =>
    unfold put
    split
    · exact lookup_cons other (name, a) (first :: rest)
    next hge =>
    split
    · next hgt =>
      have hne : name ≠ first.1 := fun h => String.lt_irrefl name (h ▸ hgt)
      rw [lookup_cons, lookup_cons, ih]
      by_cases h : other = name <;> simp [h, hne]
    · next hle =>
      have heq : first.1 = name := String.le_antisymm hge hle
      rw [lookup_cons, lookup_cons, heq]
      by_cases h : other = name <;> simp [h]

@[simp] theorem get?_empty (name : String) : (empty : NameMap α).get? name = none :=
  rfl

/-- An entry is what is found under its name, since no other entry has it. -/
theorem mem_entries_iff {m : NameMap α} {name : String} {a : α} :
    (name, a) ∈ m.entries ↔ m.get? name = some a := by
  obtain ⟨entries, hordered⟩ := m
  show (name, a) ∈ entries ↔ entries.lookup name = some a
  induction entries with
  | nil => simp
  | cons first rest ih =>
    obtain ⟨hfirst, hrest⟩ := List.pairwise_cons.1 hordered
    rw [lookup_cons, List.mem_cons]
    split
    · next hname =>
      have hnot : (name, a) ∉ rest := fun hmem => String.lt_irrefl _ (hname ▸ hfirst _ hmem)
      rw [or_iff_left hnot]
      simp [hname, Prod.ext_iff, eq_comm]
    · next hname => simp [hname, ih hrest, Prod.ext_iff]

theorem get?_insert (m : NameMap α) (name other : String) (a : α) :
    (m.insert name a).get? other = if other = name then some a else m.get? other :=
  lookup_put name other a m.entries

end NameMap

end SchemaGen
