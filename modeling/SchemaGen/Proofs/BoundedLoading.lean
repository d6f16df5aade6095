import SchemaGen.Proofs.Loading

/-!
# Loading down to a given depth

Loading ends because there are only so many files, which is an argument and not a computation.
`loadWithin` makes the same steps down to a given depth of imports and is undefined below it. It can
be evaluated, and where it is defined it is what loading does.

Result:
1. `Catalog.load_of_within`: a load within some depth is a load.
-/

namespace SchemaGen

/-- A file that holds a text. -/
def Node.text (text : String) : Node := .file .full text.toUTF8

namespace Catalog

/-- Loads the imports of `file`, where `step` loads a file. -/
def importsWithin (fs : FileSystem)
    (step : Catalog → Location → Option (Except LoadError FileId × Catalog)) (file : String) :
    (imports : List String) → Catalog → Option (Except LoadError (List FileId) × Catalog)
  | [], c => some (.ok [], c)
  | imported :: others, c =>
    match fs.canonicalize (c.root / imported) with
    | .error _ => some (.error (.unresolvedImport file imported), c)
    | .ok l =>
      if c.loading.contains l then some (.error (.importCycle file imported), c)
      else
        match step c l with
        | none => none
        | some (.error e, after) => some (.error (importError file imported e), after)
        | some (.ok id, after) =>
          (importsWithin fs step file others after).map fun (ids, final) =>
            (ids.map (id :: ·), final)

/-- Loads the file at `l`, with imports down to `depth` levels. -/
def loadAtWithin (fs : FileSystem) :
    (depth : Nat) → Catalog → Location → Option (Except LoadError FileId × Catalog)
  | 0, _, _ => none
  | depth + 1, c, l =>
    match c.loaded? l.path with
    | some id => some (.ok id, c)
    | none =>
      match read fs c.root l with
      | .error e => some (.error e, c)
      | .ok d =>
        match importsWithin fs (loadAtWithin fs depth) (nameOf c.root l) d.imports (c.enter l) with
        | none => none
        | some (.error e, after) => some (.error e, after.leave)
        | some (.ok imported, after) =>
          match build after.root after.graph l d imported with
          | .error e => some (.error e, after.leave)
          | .ok f => some (.ok after.graph.nextId, after.leave.add l f)

/-- Loads the file that a path leads to, with imports down to `depth` levels. -/
def loadWithin (fs : FileSystem) (depth : Nat) (p : Path) (c : Catalog) :
    Option (Except LoadError FileId × Catalog) :=
  match fs.canonicalize (c.root.join p) with
  | .error cause => some (.error (.unreadable (c.root.join p) cause), c)
  | .ok l => loadAtWithin fs depth c l

namespace BoundedLoadingLemmas

variable {fs : FileSystem}

theorem loadImports_of_within
    {step : Catalog → Location → Option (Except LoadError FileId × Catalog)}
    (hstep : ∀ c l r, step c l = some r → (loadAt fs c l).val = r) {file : String}
    {imports : List String} {c : Catalog} {r : Except LoadError (List FileId) × Catalog}
    (h : importsWithin fs step file imports c = some r) :
    (loadImports fs c file imports).val = r := by
  induction imports generalizing c r with
  | nil =>
    cases h
    exact loadImports_nil
  | cons imported others ih =>
    unfold importsWithin at h
    split at h
    · next cause hpath =>
      cases h
      rw [loadImports, hpath]
    · next l hpath =>
      split at h
      · next hloading =>
        cases h
        rw [loadImports, hpath]
        simp only [dif_pos (List.contains_iff_mem.1 hloading)]
      · next hloading =>
        rw [loadImports_cons hpath (mt List.contains_iff_mem.2 hloading)]
        split at h
        · cases h
        · next e after hfirst =>
          cases h
          rw [hstep c l _ hfirst]
        · next id after hfirst =>
          obtain ⟨rest, hrest, rfl⟩ := Option.map_eq_some_iff.1 h
          rw [hstep c l _ hfirst]
          simp only [ih hrest]

theorem loadAt_of_within {depth : Nat} {c : Catalog} {l : Location}
    {r : Except LoadError FileId × Catalog} (h : loadAtWithin fs depth c l = some r) :
    (loadAt fs c l).val = r := by
  induction depth generalizing c l r with
  | zero => cases h
  | succ depth ih =>
    unfold loadAtWithin at h
    split at h
    · next id hloaded =>
      cases h
      exact loadAt_known hloaded
    · next hnew =>
      split at h
      · next e hread =>
        cases h
        rw [loadAt, hnew, hread]
      · next d hread =>
        rw [loadAt_new hnew hread]
        split at h
        · cases h
        · next e after himports =>
          cases h
          rw [loadImports_of_within (fun c l r => ih) himports]
        · next imported after himports =>
          rw [loadImports_of_within (fun c l r => ih) himports]
          cases hbuild : build after.root after.graph l d imported with
          | error e =>
            rw [hbuild] at h
            cases h
            simp only [hbuild]
          | ok f =>
            rw [hbuild] at h
            cases h
            simp only [hbuild]

end BoundedLoadingLemmas

open BoundedLoadingLemmas

theorem load_of_within {fs : FileSystem} {depth : Nat} {p : Path} {c : Catalog}
    {r : Except LoadError FileId × Catalog} (h : loadWithin fs depth p c = some r) :
    (load fs p).run c = r := by
  unfold loadWithin at h
  split at h
  · next cause hpath =>
    cases h
    exact load_of_error hpath
  · next l hpath =>
    rw [load_of_ok hpath]
    exact loadAt_of_within h

end Catalog

end SchemaGen
