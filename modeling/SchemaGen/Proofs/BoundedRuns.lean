import SchemaGen.Proofs.BoundedLoading
import SchemaGen.Proofs.EventOrder

/-!
# Sessions over files with a given depth of imports

A session loads its files, so it is no more computed than loading is. `Session.runWithin` makes the
steps of a session over root files, with imports down to a given depth, and can be evaluated. The
end of the session is given: where a target sorts what it writes last, the sorted list is.

Result:
1. `Session.run_of_within`: a session within some depth is a session.
-/

namespace SchemaGen

open Run

variable {σ : Type}

/-- The visit to a root, which has to be a file, and the outcome of the root. -/
def Session.rootWithin (plan : Plan σ) (depth : Nat) (path : Path) (s : Session σ) :
    Option (List Visit × Except RunError Unit × Session σ) :=
  if s.workspace.files.isDirectory path then none
  else if plan.skip.skips (skipName s.workspace.files s.catalog.root path) then
    some ([], .ok (), { s with stats := s.stats.skip })
  else
    match Catalog.loadWithin s.workspace.files depth path s.catalog with
    | none => none
    | some (.error (.unreadable _ _), catalog) =>
      some ([], .ok (), { s with catalog, stats := s.stats.skip })
    | some (.error e, catalog) => some ([], .error (.load e), { s with catalog })
    | some (.ok id, catalog) =>
      (catalog.graph.file? id).map fun f =>
        ([⟨catalog, f⟩], ((Visit.mk catalog f).files.forM (file plan)).run { s with catalog })

/-- The visits to roots, and their outcome. -/
def Session.rootsWithin (plan : Plan σ) (depth : Nat) :
    List Path → Session σ → Option (List Visit × Except RunError Unit × Session σ)
  | [], s => some ([], .ok (), s)
  | path :: rest, s =>
    match s.rootWithin plan depth path with
    | none => none
    | some (visits, .error e, after) => some (visits, .error e, after)
    | some (visits, .ok _, after) =>
      (after.rootsWithin plan depth rest).map fun (more, outcome) => (visits ++ more, outcome)

/-- The visits of a session, the notes of the target before the end, and the outcome of the session
if `finish` is its end. -/
def Session.runWithin (plan : Plan σ) (depth : Nat) (finish : Emit σ Unit) (roots : List Path)
    (s : Session σ) : Option (List Visit × σ × Except RunError Stats × Session σ) :=
  (s.rootsWithin plan depth roots).map fun (visits, result, after) =>
    (visits, after.workspace.notes,
      EventOrderLemmas.conclude result (finish.run after.workspace).1 after.stats,
      { after with workspace := (finish.run after.workspace).2 })

namespace BoundedRunsLemmas

open EventOrderLemmas

variable {plan : Plan σ} {depth : Nat} {s : Session σ} {visits : List Visit}
  {outcome : Except RunError Unit × Session σ}

theorem root_of_within {path : Path} (h : s.rootWithin plan depth path = some (visits, outcome)) :
    (root plan path).run s = outcome ∧
      seenAtRoot plan (fun path s => (s.visit? plan path).toList) path s = visits := by
  unfold Session.rootWithin at h
  split at h
  · cases h
  next hfile =>
    simp only [root, run_bind, run_get, seenAtRoot, Session.visit?, if_neg hfile]
    rw [rootFile_run]
    split at h
    · next hskip =>
      cases h
      rw [if_pos hskip, if_pos hskip]
      exact ⟨rfl, rfl⟩
    next hskip =>
      rw [if_neg hskip, if_neg hskip]
      split at h
      · cases h
      · next hload =>
        cases h
        rw [Catalog.load_of_within hload]
        exact ⟨rfl, rfl⟩
      · next e catalog hread hload =>
        cases h
        rw [Catalog.load_of_within hload]
        cases e with
        | unreadable path cause => exact absurd rfl (hread path cause)
        | _ => exact ⟨rfl, rfl⟩
      · next id catalog hload =>
        obtain ⟨f, hf, heq⟩ := Option.map_eq_some_iff.1 h
        cases heq
        rw [Catalog.load_of_within hload]
        simp [hf, Visit.files]

theorem roots_of_within {roots : List Path}
    (h : s.rootsWithin plan depth roots = some (visits, outcome)) :
    (roots.forM (root plan)).run s = outcome ∧ s.visited plan roots = visits := by
  induction roots generalizing s visits outcome with
  | nil =>
    cases h
    exact ⟨rfl, rfl⟩
  | cons path rest ih =>
    unfold Session.rootsWithin at h
    rw [forM_run_cons, Session.visited, seen, along]
    split at h
    · cases h
    · next hroot =>
      cases h
      obtain ⟨hrun, hseen⟩ := root_of_within hroot
      rw [hrun, hseen]
      exact ⟨rfl, List.append_nil _⟩
    · next after hroot =>
      obtain ⟨⟨more, outcome'⟩, hmore, heq⟩ := Option.map_eq_some_iff.1 h
      cases heq
      obtain ⟨hrun, hseen⟩ := root_of_within hroot
      obtain ⟨hrest, hvisited⟩ := ih hmore
      rw [hrun, hseen]
      exact ⟨hrest, congrArg _ hvisited⟩

end BoundedRunsLemmas

open BoundedRunsLemmas

variable {plan : Plan σ} {roots : List Path} {s : Session σ}

/-- The target has to end its work with `finish`, which may depend on the notes it has then. -/
theorem Session.run_of_within {depth : Nat} {finish : Emit σ Unit} {visits : List Visit} {notes : σ}
    {outcome : Except RunError Stats × Session σ}
    (h : s.runWithin plan depth finish roots = some (visits, notes, outcome))
    (hfinish : ∀ w : Workspace σ, w.notes = notes → plan.target.finish.run w = finish.run w) :
    Session.run plan roots s = outcome ∧ s.visited plan roots = visits := by
  obtain ⟨⟨visits', result, after⟩, hroots, heq⟩ := Option.map_eq_some_iff.1 h
  cases heq
  obtain ⟨hrun, hvisited⟩ := roots_of_within hroots
  rw [EventOrderLemmas.session_run hrun, hfinish _ rfl]
  exact ⟨rfl, hvisited⟩

/-- A session that fails fails whatever its end does. -/
theorem Session.error_of_within {e : RunError} (depth : Nat)
    (h : ∃ r ∈ s.rootsWithin plan depth roots, r.2.1 = .error e) :
    (Session.run plan roots s).1 = .error e := by
  obtain ⟨⟨visits, result, after⟩, hroots, rfl⟩ := h
  rw [EventOrderLemmas.session_run (roots_of_within hroots).1]
  rfl

end SchemaGen
