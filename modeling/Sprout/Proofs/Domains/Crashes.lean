import Sprout.Proofs.Outcome

namespace Sprout

section Except

variable {ε ε' α β : Type}

/-- The result of a partial operation, which crashes where there is none. A computation that uses
such operations has errors that are optional: `none` is a crash, and `some e` the error `e`, which
is reported. It crashes nowhere if it comes to a computation without them, all of whose errors are
reported. -/
def demand : Option α → Except (Option ε) α
  | some a => .ok a
  | none => .error none

@[simp] theorem demand_some_bind (a : α) (f : α → Except (Option ε) β) :
    demand (some a) >>= f = f a := rfl

@[simp] theorem ok_bind (a : α) (f : α → Except ε β) : Except.ok a >>= f = f a := rfl

@[simp] theorem mapError_ok (g : ε → ε') (a : α) : (Except.ok a).mapError g = .ok a := rfl

/-- The errors of a computation that goes on with another one can be seen differently part by
part. -/
theorem mapError_bind (g : ε → ε') (x : Except ε α) (f : α → Except ε β) :
    (x >>= f).mapError g = x.mapError g >>= fun a => (f a).mapError g := by
  cases x <;> rfl

/-- Errors that are seen differently twice are seen differently once. -/
theorem mapError_mapError {ε'' : Type} (g : ε → ε') (g' : ε' → ε'') (x : Except ε α) :
    (x.mapError g).mapError g' = x.mapError (g' ∘ g) := by
  cases x <;> rfl

/-- A violation is raised as a failure by naming it one. -/
theorem liftM_violation (x : Except Violation α) :
    (liftM x : Except Failure α) = x.mapError .violation := rfl

/-- A defect of the tokens is raised as a failure by naming it one. -/
theorem liftM_malformed (x : Except (Defect Malformed) α) :
    (liftM x : Except Failure α) = x.mapError .malformed := rfl

/-- What follows a computation matters for its results only. -/
theorem bind_congr_of_ok {x : Except ε α} {f g : α → Except ε β} (h : ∀ a, x = .ok a → f a = g a) :
    x >>= f = x >>= g := by
  cases x with
  | error e => rfl
  | ok a => exact h a rfl

/-- A computation for every member of a list agrees with another one if it does for every member. -/
theorem mapM_mapError {g : ε → ε'} {f : α → Except ε β} {f' : α → Except ε' β} {as : List α}
    (h : ∀ a ∈ as, f' a = (f a).mapError g) : as.mapM f' = (as.mapM f).mapError g := by
  induction as with
  | nil => rfl
  | cons a as ih =>
    rw [List.forall_mem_cons] at h
    rw [List.mapM_cons, List.mapM_cons, h.1, ih h.2, mapError_bind]
    congr 1
    funext b
    rw [mapError_bind]
    rfl

end Except

/-- Whether a computation crashes, or else comes to the same as another one. -/
def Below {ε α : Type} (x y : Except (Option ε) α) : Prop :=
  x = .error none ∨ x = y

namespace Below

variable {ε ε' α β : Type} {x y z : Except (Option ε) α}

/-- A computation comes to itself. -/
theorem refl (x : Except (Option ε) α) : Below x x :=
  .inr rfl

/-- A computation that crashes or comes to another one crashes or comes to whatever that one
does. -/
theorem trans (hxy : Below x y) (hyz : Below y z) : Below x z := by
  rcases hxy with hx | rfl
  · exact .inl hx
  · exact hyz

/-- A computation that goes on crashes as soon as its first part does. What follows matters for the
results of that part only. -/
theorem bind_of_ok {f g : α → Except (Option ε) β} (hxy : Below x y)
    (hfg : ∀ a, x = .ok a → Below (f a) (g a)) : Below (x >>= f) (y >>= g) := by
  rcases hxy with rfl | rfl
  · exact .inl rfl
  · cases x with
    | error e => exact refl _
    | ok a => exact hfg a rfl

/-- What follows may be compared for all results, where it can be. -/
theorem bind {f g : α → Except (Option ε) β} (hxy : Below x y) (hfg : ∀ a, Below (f a) (g a)) :
    Below (x >>= f) (y >>= g) :=
  hxy.bind_of_ok fun a _ => hfg a

/-- Seeing the errors differently keeps the crashes. -/
theorem mapError (hxy : Below x y) (g : ε → ε') :
    Below (x.mapError (Option.map g)) (y.mapError (Option.map g)) := by
  rcases hxy with rfl | rfl
  · exact .inl rfl
  · exact refl _

/-- What is refused without a crash is refused by the computation that cannot crash. -/
theorem eq_of_error {z : Except ε α} {e : ε} (hxz : Below x (z.mapError some))
    (h : x = .error (some e)) : z = .error e := by
  rcases hxz with hx | rfl
  · rw [h] at hx
    cases hx
  · cases z <;> cases h
    rfl

/-- What is found without a crash is found by the computation that cannot crash. -/
theorem eq_of_ok {z : Except ε α} {a : α} (hxz : Below x (z.mapError some)) (h : x = .ok a) :
    z = .ok a := by
  rcases hxz with hx | rfl
  · rw [h] at hx
    cases hx
  · exact mapError_eq_ok_iff.1 h

end Below

/-- A partial operation that has a result for every member of a list has one for the list. -/
theorem mapM_eq_some_map {α β : Type} {f : α → Option β} {g : α → β} {as : List α}
    (h : ∀ a ∈ as, f a = some (g a)) : as.mapM f = some (as.map g) := by
  induction as with
  | nil => rfl
  | cons a as ih =>
    rw [List.forall_mem_cons] at h
    rw [List.mapM_cons, h.1, ih h.2]
    rfl

namespace Checked

variable {ε ε' ε'' α β : Type}

/-- The result of a partial operation, which crashes where there is none. -/
def demand (o : Option α) : Checked (Option ε) α :=
  .lift (Sprout.demand o)

/-- The errors of a check that goes on with another one can be seen differently part by part. Its
warnings stay as they are. -/
theorem mapError_bind (g : ε → ε') (x : Checked ε α) (f : α → Checked ε β) :
    (x >>= f).mapError g = x.mapError g >>= fun a => (f a).mapError g := by
  change (x.andThen f).mapError g = (x.mapError g).andThen fun a => (f a).mapError g
  obtain ⟨outcome, warnings⟩ := x
  cases outcome <;> rfl

/-- Errors of a check that are seen differently twice are seen differently once. -/
theorem mapError_mapError (g : ε → ε') (g' : ε' → ε'') (x : Checked ε α) :
    (x.mapError g).mapError g' = x.mapError (g' ∘ g) := by
  obtain ⟨outcome, warnings⟩ := x
  cases outcome <;> rfl

@[simp] theorem pure_bind (a : α) (f : α → Checked ε β) : pure a >>= f = f a := by
  change Checked.andThen ⟨.ok a, []⟩ f = f a
  simp [andThen]

/-- A check that goes on with its own result is that check. -/
theorem bind_pure (x : Checked ε α) : x >>= pure = x := by
  change x.andThen (fun a => ⟨.ok a, []⟩) = x
  obtain ⟨outcome, warnings⟩ := x
  cases outcome <;> simp [andThen]

@[simp] theorem demand_some_bind (a : α) (f : α → Checked (Option ε) β) :
    demand (some a) >>= f = f a :=
  pure_bind a f

@[simp] theorem mapError_pure (g : ε → ε') (a : α) :
    (pure a : Checked ε α).mapError g = pure a := rfl

/-- What follows a check matters for its results only. -/
theorem bind_congr_of_ok {x : Checked ε α} {f g : α → Checked ε β}
    (h : ∀ a, x.outcome = .ok a → f a = g a) : x >>= f = x >>= g := by
  change x.andThen f = x.andThen g
  unfold andThen
  cases hx : x.outcome with
  | error e => rfl
  | ok a => simp only [h a hx]

end Checked

end Sprout
