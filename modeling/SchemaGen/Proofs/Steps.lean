/-!
# Steps that change a state and can fail

Changes of the disk, steps of a target and steps of a run all have the form `ExceptT ε (StateM τ)`: a
step that fails leaves the state that it came to. `run_bind` and `forM_run_append` say what comes of
steps in a row, `run_bind_eq_ok` and `forM_append_ok` what is known of them if they succeed.
-/

namespace SchemaGen

variable {ε τ α β : Type} {t t' : τ}

@[simp] theorem run_pure (a : α) (t : τ) :
    (pure a : ExceptT ε (StateM τ) α).run t = (.ok a, t) := rfl

theorem run_get (t : τ) : (get : ExceptT ε (StateM τ) τ).run t = (.ok t, t) := rfl

theorem run_modify (f : τ → τ) (t : τ) :
    (modify f : ExceptT ε (StateM τ) Unit).run t = (.ok (), f t) := rfl

theorem run_ofExcept (x : Except ε α) (t : τ) :
    (liftM x : ExceptT ε (StateM τ) α).run t = (x, t) := rfl

theorem run_adapt {ε' : Type} (f : ε → ε') (x : ExceptT ε (StateM τ) α) (t : τ) :
    (ExceptT.adapt f x).run t = ((x.run t).1.mapError f, (x.run t).2) := rfl

theorem run_bind (x : ExceptT ε (StateM τ) α) (f : α → ExceptT ε (StateM τ) β) (t : τ) :
    (x >>= f).run t =
      match x.run t with
      | (.ok a, now) => (f a).run now
      | (.error e, now) => (.error e, now) := by
  show (match x.run t with | (r, now) => (ExceptT.bindCont f r).run now) = _
  rcases x.run t with ⟨(e | a), now⟩ <;> rfl

theorem run_map (f : α → β) (x : ExceptT ε (StateM τ) α) (t : τ) :
    (f <$> x).run t = ((x.run t).1.map f, (x.run t).2) := by
  rw [ExceptT.run_map]
  rfl

theorem run_tryCatch (x : ExceptT ε (StateM τ) α) (handler : ε → ExceptT ε (StateM τ) α) (t : τ) :
    (tryCatch x handler).run t =
      match x.run t with
      | (.ok a, now) => (.ok a, now)
      | (.error e, now) => (handler e).run now := by
  simp only [tryCatch, tryCatchThe, MonadExceptOf.tryCatch, ExceptT.tryCatch, ExceptT.run,
    ExceptT.mk, bind, StateT.bind]
  rcases x t with ⟨(e | a), now⟩ <;> rfl

theorem run_bind_eq_ok {x : ExceptT ε (StateM τ) α} {f : α → ExceptT ε (StateM τ) β} {b : β}
    (h : (x >>= f).run t = (.ok b, t')) :
    ∃ a now, x.run t = (.ok a, now) ∧ (f a).run now = (.ok b, t') := by
  rw [run_bind] at h
  rcases hx : x.run t with ⟨(e | a), now⟩
  · rw [hx] at h
    cases h
  · rw [hx] at h
    exact ⟨a, now, rfl, h⟩

/-! ### Loops -/

theorem forM_run_cons (act : α → ExceptT ε (StateM τ) Unit) (a : α) (rest : List α) (t : τ) :
    ((a :: rest).forM act).run t =
      match (act a).run t with
      | (.ok _, now) => (rest.forM act).run now
      | (.error e, now) => (.error e, now) := by
  show (act a >>= fun _ => rest.forM act).run t = _
  rw [run_bind]
  rcases (act a).run t with ⟨(e | _), now⟩ <;> rfl

theorem forM_run_singleton (act : α → ExceptT ε (StateM τ) Unit) (a : α) (t : τ) :
    ([a].forM act).run t = (act a).run t := by
  rw [forM_run_cons]
  rcases (act a).run t with ⟨(e | _), now⟩ <;> rfl

theorem forM_run_append (act : α → ExceptT ε (StateM τ) Unit) (xs ys : List α) (t : τ) :
    ((xs ++ ys).forM act).run t =
      match (xs.forM act).run t with
      | (.ok _, now) => (ys.forM act).run now
      | (.error e, now) => (.error e, now) := by
  induction xs generalizing t with
  | nil => rfl
  | cons x xs ih =>
    rw [List.cons_append, forM_run_cons, forM_run_cons]
    rcases (act x).run t with ⟨(e | _), now⟩
    · rfl
    · exact ih now

/-- A loop over two lists that succeeds has gone through one after the other. -/
theorem forM_append_ok {act : α → ExceptT ε (StateM τ) Unit} {xs ys : List α}
    (h : ((xs ++ ys).forM act).run t = (.ok (), t')) :
    ∃ now, (xs.forM act).run t = (.ok (), now) ∧ (ys.forM act).run now = (.ok (), t') := by
  rw [forM_run_append] at h
  rcases hfirst : (xs.forM act).run t with ⟨(e | _), now⟩
  · rw [hfirst] at h
    cases h
  · rw [hfirst] at h
    exact ⟨now, rfl, h⟩

end SchemaGen
