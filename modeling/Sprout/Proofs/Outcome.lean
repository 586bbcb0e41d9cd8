import Sprout.Emission

namespace Sprout

section Except

variable {ε ε' α β : Type}

/-- A computation that goes on with another one succeeds if both do. -/
theorem bind_eq_ok_iff {x : Except ε α} {f : α → Except ε β} {b : β} :
    x >>= f = .ok b ↔ ∃ a, x = .ok a ∧ f a = .ok b := by
  cases x with
  | error e => simp [bind, Except.bind]
  | ok a => simp [bind, Except.bind]

/-- The result of a computation whose refusals are seen differently is the same. -/
theorem mapError_eq_ok_iff {f : ε → ε'} {x : Except ε α} {a : α} :
    x.mapError f = .ok a ↔ x = .ok a := by
  cases x with
  | error e => constructor <;> intro h <;> cases h
  | ok b => constructor <;> intro h <;> cases h <;> rfl

/-- A computation that goes on with another one fails where one of both does. -/
theorem bind_eq_error_iff {x : Except ε α} {f : α → Except ε β} {e : ε} :
    x >>= f = .error e ↔ x = .error e ∨ ∃ a, x = .ok a ∧ f a = .error e := by
  cases x with
  | error e => simp [bind, Except.bind]
  | ok a => simp [bind, Except.bind]

/-- A computation whose refusals are seen differently is refused where the computation is. -/
theorem mapError_eq_error_iff {f : ε → ε'} {x : Except ε α} {e : ε'} :
    x.mapError f = .error e ↔ ∃ e', x = .error e' ∧ e = f e' := by
  constructor
  · intro h
    cases x with
    | error e' =>
      cases h
      exact ⟨e', rfl, rfl⟩
    | ok a => cases h
  · rintro ⟨e', rfl, rfl⟩
    rfl

/-- A computation for every member of a list fails at a member. -/
theorem exists_of_mapM_eq_error {f : α → Except ε β} {as : List α} {e : ε}
    (h : as.mapM f = .error e) : ∃ a ∈ as, f a = .error e := by
  induction as with
  | nil => cases h
  | cons a as ih =>
    rw [List.mapM_cons, bind_eq_error_iff] at h
    rcases h with hhead | ⟨b, -, htail⟩
    · exact ⟨a, List.mem_cons_self, hhead⟩
    · rw [bind_eq_error_iff] at htail
      rcases htail with htail | ⟨bs, -, hpure⟩
      · obtain ⟨a', ha', hfails⟩ := ih htail
        exact ⟨a', List.mem_cons_of_mem a ha', hfails⟩
      · cases hpure

/-- A computation that is known to succeed has a result. -/
theorem exists_eq_ok_of_isOk {x : Except ε α} (h : x.isOk = true) : ∃ a, x = .ok a := by
  cases x with
  | error e => cases h
  | ok a => exact ⟨a, rfl⟩

/-- A result that is seen is the result of the computation. -/
theorem eq_ok_of_toOption {x : Except ε α} {a : α} (h : x.toOption = some a) : x = .ok a := by
  cases x with
  | error e => cases h
  | ok b =>
    cases h
    rfl

end Except

namespace Checked

variable {ε ε' α β : Type}

/-- A check that goes on with another one succeeds if both do. -/
@[simp] theorem outcome_bind_eq_ok_iff {x : Checked ε α} {f : α → Checked ε β} {b : β} :
    (x >>= f).outcome = .ok b ↔ ∃ a, x.outcome = .ok a ∧ (f a).outcome = .ok b := by
  change (x.andThen f).outcome = .ok b ↔ _
  unfold andThen
  cases x.outcome with
  | error e => simp
  | ok a => simp

@[simp] theorem outcome_pure (a : α) : (pure a : Checked ε α).outcome = .ok a := rfl

@[simp] theorem outcome_fail (e : ε) : (fail e : Checked ε α).outcome = .error e := rfl

@[simp] theorem outcome_warn (d : Diagnostic) : (warn d : Checked ε Unit).outcome = .ok () := rfl

@[simp] theorem outcome_lift (x : Except ε α) : (lift x).outcome = x := rfl

@[simp] theorem outcome_mapError_eq_ok_iff {f : ε → ε'} {x : Checked ε α} {a : α} :
    (x.mapError f).outcome = .ok a ↔ x.outcome = .ok a :=
  mapError_eq_ok_iff

end Checked

section Emitting

variable {α : Type}

@[simp] theorem outcome_raise (fault : Fault) (position : Position) :
    (fault.raise position : Check α).outcome = .error (fault.blame position) := rfl

@[simp] theorem outcome_monadLift_check {check : Check α} {a : α} :
    (liftM check : Emitting α).outcome = .ok a ↔ check.outcome = .ok a :=
  Checked.outcome_mapError_eq_ok_iff

@[simp] theorem outcome_monadLift_violation {x : Except Violation α} {a : α} :
    (liftM x : Emitting α).outcome = .ok a ↔ x = .ok a :=
  mapError_eq_ok_iff

@[simp] theorem outcome_monadLift_malformed {x : Except (Defect Malformed) α} {a : α} :
    (liftM x : Emitting α).outcome = .ok a ↔ x = .ok a :=
  mapError_eq_ok_iff

@[simp] theorem liftM_violation_eq_ok_iff {x : Except Violation α} {a : α} :
    (liftM x : Except Failure α) = .ok a ↔ x = .ok a :=
  mapError_eq_ok_iff

@[simp] theorem liftM_malformed_eq_ok_iff {x : Except (Defect Malformed) α} {a : α} :
    (liftM x : Except Failure α) = .ok a ↔ x = .ok a :=
  mapError_eq_ok_iff

end Emitting

/-- A run that is required is not changed. -/
theorem require_eq_ok {part : Part} {beside : Token} {run run' : List Token}
    (h : require part beside run = .ok run') : run' = run := by
  unfold require at h
  split at h
  · cases h
  · cases h
    rfl

end Sprout
