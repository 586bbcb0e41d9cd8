import Sprout.Proofs.Relocation.Emission

namespace Sprout

/-- Something that may be shown at a place of a source. -/
class HasPlace (ε : Type) where
  place? : ε → Option Position

instance {κ : Type} : HasPlace (Defect κ) := ⟨fun defect => some defect.position⟩

instance {κ : Type} : HasPlace (Located κ) := ⟨Located.position⟩

instance : HasPlace Diagnostic := ⟨Diagnostic.position⟩

instance : HasPlace Failure where
  place?
    | .malformed defect => some defect.position
    | .violation violation => violation.position

variable (P : Position → Prop)

/-- Whether something is shown at one of the places `P`, if it is shown anywhere. That is known of
whatever does not change when everything outside `P` is moved. -/
def ShownIn {ε : Type} [HasPlace ε] (x : ε) : Prop :=
  ∀ p ∈ HasPlace.place? x, P p

/-- Whether a computation, if it refuses, points into the places `P`. Typing looks at positions for
no other reason than to point at them. -/
def RefusesIn {ε α : Type} [HasPlace ε] (x : Except ε α) : Prop :=
  ∀ e, x = .error e → ShownIn P e

/-- Whether a check points into the places `P` only, refusing or warning. -/
structure Checked.PointsIn {ε α : Type} [HasPlace ε] (x : Checked ε α) : Prop where
  refuses : RefusesIn P x.outcome
  warns : ∀ d ∈ x.warnings, ShownIn P d

variable {P}

variable {κ : Type}

@[simp] theorem shownIn_blame_iff {fault : Fault} {p : Position} :
    ShownIn P (fault.blame p) ↔ P p := by
  simp [ShownIn, HasPlace.place?, Fault.blame, Located.placed]

@[simp] theorem shownIn_tokenBlame_iff {t : Token} {cause : κ} :
    ShownIn P (t.blame cause) ↔ P t.position := by
  simp [ShownIn, HasPlace.place?, Token.blame, Located.placed]

@[simp] theorem shownIn_defect_iff {t : Token} {cause : κ} :
    ShownIn P (t.defect cause) ↔ P t.position := by
  simp [ShownIn, HasPlace.place?, Token.defect]

@[simp] theorem shownIn_unplaced (cause : κ) : ShownIn P (Located.unplaced cause) := by
  simp [ShownIn, HasPlace.place?, Located.unplaced]

@[simp] theorem shownIn_malformed_iff {defect : Defect Malformed} :
    ShownIn P (Failure.malformed defect) ↔ ShownIn P defect :=
  Iff.rfl

@[simp] theorem shownIn_violation_iff {violation : Violation} :
    ShownIn P (Failure.violation violation) ↔ ShownIn P violation :=
  Iff.rfl

@[simp] theorem shownIn_shadowWarning_iff {name : String} {p : Position} :
    ShownIn P (Emission.shadowWarning name p) ↔ P p := by
  simp [ShownIn, HasPlace.place?, Emission.shadowWarning, Diagnostic.warning]

section Computations

variable {ε α β : Type} [HasPlace ε]

@[simp] theorem refusesIn_ok (a : α) : RefusesIn P (.ok a : Except ε α) := by
  intro e h
  cases h

/-- What succeeds blames nothing. -/
@[simp] theorem refusesIn_pure (a : α) : RefusesIn P (pure a : Except ε α) :=
  refusesIn_ok a

@[simp] theorem refusesIn_error_iff {e : ε} :
    RefusesIn P (.error e : Except ε α) ↔ ShownIn P e := by
  simp [RefusesIn]

@[simp] theorem refusesIn_refuse_iff {fault : Fault} {p : Position} :
    RefusesIn P (fault.refuse p : Except Failure α) ↔ P p := by
  simp [Fault.refuse]

/-- A computation that goes on with another one refuses where one of both does. -/
@[simp] theorem refusesIn_bind_iff {x : Except ε α} {f : α → Except ε β} :
    RefusesIn P (x >>= f) ↔ RefusesIn P x ∧ ∀ a, x = .ok a → RefusesIn P (f a) := by
  cases x with
  | error e => simp [RefusesIn, bind, Except.bind]
  | ok a => simp [RefusesIn, bind, Except.bind]

/-- A result that is changed afterwards changes nothing about the refusals. -/
@[simp] theorem refusesIn_map_iff {x : Except ε α} {f : α → β} :
    RefusesIn P (f <$> x) ↔ RefusesIn P x := by
  cases x with
  | error e => simp [RefusesIn, Functor.map, Except.map]
  | ok a => simp [RefusesIn, Functor.map, Except.map]

/-- A choice points to such places if both of its branches do, each under its own condition. -/
@[simp] theorem refusesIn_ite_iff {c : Prop} [Decidable c] {x y : Except ε α} :
    RefusesIn P (if c then x else y) ↔ (c → RefusesIn P x) ∧ (¬ c → RefusesIn P y) := by
  split <;> simp [*]

/-- Refusals that are seen differently point to the same places, if they are shown at the same
places as before. -/
theorem refusesIn_mapError_iff {ε' : Type} [HasPlace ε'] {f : ε → ε'}
    (hf : ∀ e, ShownIn P (f e) ↔ ShownIn P e) {x : Except ε α} :
    RefusesIn P (x.mapError f) ↔ RefusesIn P x := by
  cases x with
  | error e => simp [Except.mapError, hf]
  | ok a => simp [Except.mapError]

@[simp] theorem refusesIn_liftM_violation_iff {x : Except Violation α} :
    RefusesIn P (liftM x : Except Failure α) ↔ RefusesIn P x :=
  refusesIn_mapError_iff (f := Failure.violation) fun _ => Iff.rfl

@[simp] theorem refusesIn_liftM_malformed_iff {x : Except (Defect Malformed) α} :
    RefusesIn P (liftM x : Except Failure α) ↔ RefusesIn P x :=
  refusesIn_mapError_iff (f := Failure.malformed) fun _ => Iff.rfl

/-- A step of an emission that checks something fails with the violation that the check found. -/
theorem liftM_violation_eq_error_iff {x : Except Violation α} {failure : Failure} :
    (liftM x : Except Failure α) = .error failure ↔
      ∃ violation, x = .error violation ∧ failure = .violation violation :=
  mapError_eq_error_iff (f := Failure.violation)

/-- A refusal without a place is shown where it is blamed. -/
theorem refusesIn_orAt {x : Except Violation α} {p : Position} (hp : P p) (hx : RefusesIn P x) :
    RefusesIn P (x.mapError (·.orAt p)) := by
  cases x with
  | ok a => simp [Except.mapError]
  | error v =>
    obtain ⟨cause, position⟩ := v
    have hshown := refusesIn_error_iff.1 hx
    cases position with
    | none => simpa [Except.mapError, ShownIn, HasPlace.place?, Located.orAt] using hp
    | some q =>
      simpa [Except.mapError, ShownIn, HasPlace.place?, Located.orAt] using hshown q rfl

end Computations

namespace Checked

section Checks

variable {ε α β : Type} [HasPlace ε]

@[simp] theorem pointsIn_pure (a : α) : (pure a : Checked ε α).PointsIn P :=
  ⟨refusesIn_ok a, fun d hd => by cases hd⟩

/-- A step that cannot warn points to such places if its refusals do. -/
@[simp] theorem pointsIn_lift_iff {x : Except ε α} : (lift x).PointsIn P ↔ RefusesIn P x :=
  ⟨fun h => h.refuses, fun h => ⟨h, fun d hd => by cases hd⟩⟩

/-- A check that goes on with another one points where both point. With it, a compound check is
taken apart down to the single steps that blame something. -/
@[simp] theorem pointsIn_bind_iff {x : Checked ε α} {f : α → Checked ε β} :
    (x >>= f).PointsIn P ↔ x.PointsIn P ∧ ∀ a, x.outcome = .ok a → (f a).PointsIn P := by
  obtain ⟨outcome, warnings⟩ := x
  change (andThen _ f).PointsIn P ↔ _
  unfold andThen
  cases outcome with
  | error e =>
    simp only [reduceCtorEq, false_implies, implies_true, and_true]
    exact ⟨fun h => ⟨refusesIn_error_iff.2 (refusesIn_error_iff.1 h.refuses), h.warns⟩,
      fun h => ⟨refusesIn_error_iff.2 (refusesIn_error_iff.1 h.refuses), h.warns⟩⟩
  | ok a =>
    constructor
    · rintro ⟨hrefuses, hwarns⟩
      simp only [List.mem_append, or_imp, forall_and] at hwarns
      refine ⟨⟨refusesIn_ok a, hwarns.1⟩, fun b hb => ?_⟩
      cases hb
      exact ⟨hrefuses, hwarns.2⟩
    · rintro ⟨hx, hf⟩
      obtain ⟨hrefuses, hwarns⟩ := hf a rfl
      refine ⟨hrefuses, fun d hd => ?_⟩
      rcases List.mem_append.1 hd with hd | hd
      · exact hx.warns d hd
      · exact hwarns d hd

/-- A check that asks a question points to such places if it does for both answers. -/
@[simp] theorem pointsIn_ite_iff {c : Prop} [Decidable c] {x y : Checked ε α} :
    (if c then x else y).PointsIn P ↔ (c → x.PointsIn P) ∧ (¬ c → y.PointsIn P) := by
  split <;> simp [*]

end Checks

variable {α : Type}

@[simp] theorem pointsIn_raise_iff {fault : Fault} {p : Position} :
    (fault.raise p : Check α).PointsIn P ↔ P p :=
  pointsIn_lift_iff.trans (refusesIn_error_iff.trans shownIn_blame_iff)

@[simp] theorem pointsIn_liftM_check_iff {x : Check α} :
    (liftM x : Emitting α).PointsIn P ↔ x.PointsIn P :=
  ⟨fun h => ⟨refusesIn_liftM_violation_iff.1 h.refuses, h.warns⟩,
    fun h => ⟨refusesIn_liftM_violation_iff.2 h.refuses, h.warns⟩⟩

@[simp] theorem pointsIn_liftM_violation_iff {x : Except Violation α} :
    (liftM x : Emitting α).PointsIn P ↔ RefusesIn P x :=
  pointsIn_lift_iff.trans refusesIn_liftM_violation_iff

@[simp] theorem pointsIn_liftM_malformed_iff {x : Except (Defect Malformed) α} :
    (liftM x : Emitting α).PointsIn P ↔ RefusesIn P x :=
  pointsIn_lift_iff.trans refusesIn_liftM_malformed_iff

end Checked

/-- A list that a function does not change has no member that it changes. -/
theorem map_eq_self_iff {α : Type} {f : α → α} {as : List α} :
    as.map f = as ↔ ∀ a ∈ as, f a = a := by
  simpa using List.map_inj_left (l := as) (f := f) (g := id)

open Classical in
/-- Moves the places outside `P` by a column, and leaves those of `P` as they are. -/
noncomputable def shunt (P : Position → Prop) (p : Position) : Position :=
  if P p then p else ⟨p.line, p.column + 1⟩

/-- Sending all other places elsewhere keeps a place if it is one of `P`. -/
theorem shunt_eq_iff {p : Position} : shunt P p = p ↔ P p := by
  unfold shunt
  split
  · simp [*]
  · have hmoved : (⟨p.line, p.column + 1⟩ : Position) ≠ p := fun h => by
      have hcolumn := congrArg Position.column h
      simp at hcolumn
    simp [*]

/-- The same for a place that may not be there. -/
theorem shunt_eq_self_of_map {position : Option Position}
    (h : position.map (shunt P) = position) : ∀ p ∈ position, P p := by
  rintro p hp
  rw [Option.mem_def.1 hp] at h
  exact shunt_eq_iff.1 (Option.some.inj h)

/-- A check that is not changed when the places outside `P` are moved points into `P`. -/
theorem Checked.pointsIn_of_relocate {α : Type} {x : Check α} (h : x.relocate (shunt P) = x) :
    x.PointsIn P := by
  have houtcome := congrArg Checked.outcome h
  have hwarnings := congrArg Checked.warnings h
  constructor
  · intro v hv
    simp only [Checked.relocate, hv, Except.mapError, Except.error.injEq] at houtcome
    exact shunt_eq_self_of_map (congrArg Located.position houtcome)
  · intro d hd
    have hfixed := map_eq_self_iff.1 hwarnings d hd
    exact shunt_eq_self_of_map (congrArg Diagnostic.position hfixed)

namespace Expr

/-- Whether all positions of an expression are among the places `P`. -/
def StandsIn (P : Position → Prop) (e : Expr) : Prop :=
  e.relocate (shunt P) = e

variable {e : Expr} (scopes : Scopes)

/-- An expression is placed at one of its own positions. -/
theorem StandsIn.position (he : e.StandsIn P) : P e.position := by
  have hposition := congrArg Expr.position he
  rw [position_relocate] at hposition
  exact shunt_eq_iff.1 hposition

/-- Typing an expression points to places of the expression, for it comes to the same when
everything else is moved. -/
theorem pointsIn_value (he : e.StandsIn P) : (e.value scopes).PointsIn P :=
  Checked.pointsIn_of_relocate (by rw [← value_relocate, he])

/-- Typing an initial value for a given type points to places of the value. -/
theorem pointsIn_initializer (he : e.StandsIn P) (target : Option Ty) :
    (e.initializer scopes target).PointsIn P :=
  Checked.pointsIn_of_relocate (by rw [← initializer_relocate, he])

/-- Resolving a type points to places of the type. -/
theorem pointsIn_resolveType (he : e.StandsIn P) : (e.resolveType scopes).PointsIn P :=
  Checked.pointsIn_of_relocate (by rw [← resolveType_relocate, he])

end Expr

/-- A conversion warns at the place it is asked to. -/
theorem Typed.pointsIn_converted (typed : Typed) (target : Ty) {p : Position} (hp : P p) :
    (typed.converted target p).PointsIn P :=
  Checked.pointsIn_of_relocate (by rw [relocate_converted, shunt_eq_iff.2 hp])

/-- What cannot be modified is blamed at the place given for it. -/
theorem Typed.refusesIn_checkModifiable (typed : Typed) {p : Position} (hp : P p) :
    RefusesIn P (typed.checkModifiable p) := by
  unfold checkModifiable
  split <;> simp [hp]

section Expressions

variable {es : List Expr} (scopes : Scopes)

/-- Expressions at such places stay where they are when all other places are sent elsewhere. -/
theorem map_relocate_shunt (hes : ∀ e ∈ es, e.StandsIn P) :
    es.map (Expr.relocate (shunt P)) = es :=
  map_eq_self_iff.2 hes

/-- A call that returns too many or too few values is blamed where it stands. -/
theorem pointsIn_unpackable? (hes : ∀ e ∈ es, e.StandsIn P) (count : Nat) :
    (unpackable? scopes count es).PointsIn P :=
  Checked.pointsIn_of_relocate (by rw [← unpackable?_relocate, map_relocate_shunt hes])

/-- What is lost in unpacking a call is shown where the call stands. -/
theorem pointsIn_unpack (call : Typed) (members : List Ty) (targets : List (String × Ty))
    {p : Position} (hp : P p) : (unpack call members targets p).PointsIn P :=
  Checked.pointsIn_of_relocate (by rw [relocate_unpack, shunt_eq_iff.2 hp])

/-- Expressions that are evaluated for their effect point to places of their own. -/
theorem pointsIn_operationLines (hes : ∀ e ∈ es, e.StandsIn P) :
    (operationLines scopes es).PointsIn P :=
  Checked.pointsIn_of_relocate (by rw [← operationLines_relocate, map_relocate_shunt hes])

/-- The bound and the step of a loop are blamed where they stand. -/
theorem Emission.pointsIn_clauseValue (clause : Clause) {e : Expr} (he : e.StandsIn P) :
    (clauseValue scopes clause e).PointsIn P :=
  Checked.pointsIn_of_relocate (by rw [← clauseValue_relocate, he])

/-- An assignment points to places of its targets and values. -/
theorem Assignment.pointsIn_lines {a : Assignment} (ha : a.relocate (shunt P) = a) :
    (a.lines scopes).PointsIn P :=
  Checked.pointsIn_of_relocate (by rw [← lines_relocate, ha])

/-- A value that no type can be inferred from is blamed where it stands. -/
theorem Declaration.pointsIn_inferredType (value : Typed) (name : String) {p : Position}
    (hp : P p) : (inferredType value name p).PointsIn P :=
  Checked.pointsIn_of_relocate (by rw [relocate_inferredType, shunt_eq_iff.2 hp])

end Expressions

end Sprout
