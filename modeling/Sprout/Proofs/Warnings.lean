import Sprout.Emission.Program
import Sprout.Proofs.Typing.Parts

namespace Sprout

/-- A warning about a narrowing conversion somewhere. Typing an expression and planning a statement
give no other warnings. -/
def Diagnostic.Narrows (d : Diagnostic) : Prop :=
  ∃ message position, d = .warning .precisionLoss message position

/-- A warning about a place. The emission adds warnings about hidden names to those about narrowing,
and each says where. -/
def Diagnostic.Warns (d : Diagnostic) : Prop :=
  ∃ code message position, d = .warning code message position

/-- A warning about a narrowing conversion is a warning that has a place. -/
theorem Diagnostic.Narrows.warns {d : Diagnostic} (h : d.Narrows) : d.Warns := by
  obtain ⟨message, position, rfl⟩ := h
  exact ⟨.precisionLoss, message, position, rfl⟩

namespace Checked

/-- All warnings of a check are about narrowing conversions. -/
def Narrows {ε α : Type} (x : Checked ε α) : Prop :=
  ∀ d ∈ x.warnings, d.Narrows

section Checks

variable {ε ε' α β : Type}

/-- A result by itself has no warnings. -/
@[simp] theorem narrows_pure (a : α) : (pure a : Checked ε α).Narrows := by
  intro d hd
  cases hd

@[simp] theorem narrows_fail (e : ε) : (fail e : Checked ε α).Narrows := by
  intro d hd
  cases hd

/-- What can only be refused has no warnings. -/
@[simp] theorem narrows_lift (x : Except ε α) : (lift x).Narrows := by
  intro d hd
  cases hd

/-- A check that goes on with another one warns of what both warn of. -/
@[simp] theorem narrows_bind_iff {x : Checked ε α} {f : α → Checked ε β} :
    (x >>= f).Narrows ↔ x.Narrows ∧ ∀ a, x.outcome = .ok a → (f a).Narrows := by
  change (x.andThen f).Narrows ↔ _
  unfold andThen Narrows
  cases x.outcome with
  | error e => simp
  | ok a => simp [List.mem_append, or_imp, forall_and]

/-- Warnings stay what they are when refusals are seen differently. -/
@[simp] theorem narrows_mapError_iff {f : ε → ε'} {x : Checked ε α} :
    (x.mapError f).Narrows ↔ x.Narrows :=
  Iff.rfl

/-- A choice warns about narrowing only if both of its branches do, each under its own condition. -/
@[simp] theorem narrows_ite_iff {c : Prop} [Decidable c] {x y : Checked ε α} :
    (if c then x else y).Narrows ↔ (c → x.Narrows) ∧ (¬ c → y.Narrows) := by
  split <;> simp [*]

end Checks

variable {α : Type}

/-- A refusal is no warning. -/
@[simp] theorem narrows_raise (fault : Fault) (position : Position) :
    (fault.raise position : Check α).Narrows :=
  narrows_fail _

/-- A check of an expression has the same warnings as part of a statement. -/
@[simp] theorem narrows_monadLift_iff {x : Check α} : (liftM x : Emitting α).Narrows ↔ x.Narrows :=
  Iff.rfl

@[simp] theorem narrows_monadLift_violation (x : Except Violation α) :
    (liftM x : Emitting α).Narrows :=
  narrows_lift _

/-- Reading tokens raises no warnings. -/
@[simp] theorem narrows_monadLift_malformed (x : Except (Defect Malformed) α) :
    (liftM x : Emitting α).Narrows :=
  narrows_lift _

end Checked

/-- The one warning that typing can raise is about a narrowing conversion, and says where it is. -/
@[simp] theorem narrows_warnPrecision (source target : Ty) (position : Position) :
    (warnPrecision source target position).Narrows := by
  intro d hd
  rw [List.mem_singleton.1 hd]
  exact ⟨_, position, rfl⟩

namespace Typed

variable (typed receiver offset inner left right : Typed) (args : List Typed) (p : Position)

/-- What is stored warns only if it narrows. -/
@[simp] theorem narrows_checkAssign (target : Ty) : (typed.checkAssign target p).Narrows := by
  unfold checkAssign
  repeat' split
  all_goals simp

/-- What is converted warns only if it narrows. -/
@[simp] theorem narrows_converted (target : Ty) : (typed.converted target p).Narrows := by
  simp [converted]

@[simp] theorem narrows_ofNumber (number : Number) : (ofNumber number p).Narrows := by
  unfold ofNumber
  dsimp only
  split <;> simp

@[simp] theorem narrows_ofLiteral (literal : Literal) : (ofLiteral literal p).Narrows := by
  unfold ofLiteral
  split <;> simp

@[simp] theorem narrows_ofName (scopes : Scopes) (name : String) :
    (ofName scopes name p).Narrows := by
  unfold ofName
  split <;> simp

@[simp] theorem narrows_elementAt : (elementAt receiver offset p).Narrows := by
  unfold elementAt
  repeat' split
  all_goals simp

/-- The arguments of a call warn only if they narrow, each for itself. -/
@[simp] theorem narrows_warnNarrowed (element : Option Ty) (narrowed : List Nat) :
    (warnNarrowed element args p narrowed).Narrows := by
  induction narrowed with
  | nil => simp [warnNarrowed]
  | cons index narrowed ih =>
    unfold warnNarrowed
    dsimp only
    split <;> simp [ih]

/-- A call that has been resolved raises the warnings of its arguments. -/
@[simp] theorem narrows_call (target : Option Typed) (resolved : Resolved) :
    (call target resolved args p).Narrows := by
  simp [call]

/-- Whatever a call is bound to, its warnings are those of its arguments. -/
@[simp] theorem narrows_bindCall (target : Option Typed) (name : String) :
    (bindCall target name args p).Narrows := by
  simp [bindCall]

/-- A call of a function warns only about arguments that narrow. -/
@[simp] theorem narrows_callFunction (name : String) : (callFunction name args p).Narrows := by
  simp [callFunction]

/-- A call of a method warns only about arguments that narrow, as pushing an element does. -/
@[simp] theorem narrows_callMethod (name : String) : (callMethod receiver name args p).Narrows := by
  unfold callMethod
  split
  · split <;> simp
  · simp

/-- A conversion that is asked for raises no warning. -/
@[simp] theorem narrows_convert (target : Primitive) : (convert target args p).Narrows := by
  simp [convert]

/-- A sign raises no warning. -/
@[simp] theorem narrows_applyUnary (op : UnaryOp) : (applyUnary op inner p).Narrows := by
  simp [applyUnary]

/-- A step raises no warning. -/
@[simp] theorem narrows_applyStep (op : StepOp) (after : Bool) :
    (applyStep op after inner p).Narrows := by
  simp [applyStep]

/-- An operator raises no warning. -/
@[simp] theorem narrows_applyBinary (op : BinaryOp) : (applyBinary op left right p).Narrows := by
  unfold applyBinary
  split <;> simp

end Typed

namespace Expr

variable (scopes : Scopes)

/-- Several expressions warn only about narrowing if each one does. -/
theorem narrows_values {es : List Expr} (h : ∀ e ∈ es, (value scopes e).Narrows) :
    (values scopes es).Narrows := by
  induction es with
  | nil => simp [values]
  | cons e es ih =>
    rw [List.forall_mem_cons] at h
    simp [values, h.1, ih h.2]

/-- Whatever is typed warns only about narrowing, by induction on the expression. The one step that
warns at all pushes an element into an array. -/
@[simp] theorem narrows_value (e : Expr) : (value scopes e).Narrows := by
  induction e using inductionOnChildren with
  | step e ih =>
    cases e with
    | number | literal | ident | null | array | typeName => simp [value]
    | index | unary | stepBefore | stepAfter | binary =>
      simp only [children, List.forall_mem_cons] at ih
      simp [value, ih]
    | field receiver name p =>
      simp only [children, List.forall_mem_cons] at ih
      simp [value, ih.1]
    | call name args p =>
      rw [children] at ih
      simp [value, narrows_values scopes ih]
    | method receiver name args p =>
      rw [children, List.forall_mem_cons] at ih
      simp [value, ih.1, narrows_values scopes ih.2]
    | convert name sizes args p =>
      cases sizes with
      | cons => simp [value]
      | nil =>
        rw [children, List.reduceOption_nil, List.append_nil] at ih
        simp [value, narrows_values scopes ih]

/-- The size of a dimension warns only about narrowing. -/
@[simp] theorem narrows_dimension (size : Expr) : (dimension scopes size).Narrows := by
  simp only [dimension, Checked.narrows_bind_iff, narrows_value, true_and]
  intro typed _
  split <;> simp

@[simp] theorem narrows_dimensioned (base : Ty) (sizes : List (Option Expr)) :
    (dimensioned scopes base sizes).Narrows := by
  induction sizes with
  | nil => simp [dimensioned]
  | cons level sizes ih =>
    simp only [dimensioned, Checked.narrows_bind_iff, ih, true_and]
    intro element _
    split <;> simp

/-- A type warns only about narrowing, in the sizes of its dimensions. -/
@[simp] theorem narrows_resolveType (e : Expr) : (resolveType scopes e).Narrows := by
  unfold resolveType
  split <;> simp

/-- Joining the types of two elements warns only about narrowing. -/
@[simp] theorem narrows_joinElement (current : Option Ty) (next : Ty) (p : Position) :
    (joinElement current next p).Narrows := by
  unfold joinElement
  repeat' split
  all_goals simp

@[simp] theorem narrows_arrayTarget (target : Ty) (count : Nat) (p : Position) :
    (arrayTarget target count p).Narrows := by
  unfold arrayTarget
  split <;> simp

section Elements

variable {es : List Expr} (h : ∀ e ∈ es, ∀ target, (initializer scopes target e).Narrows)

include h

/-- The elements of an array warn only about narrowing, if each does. -/
theorem narrows_elementType (current : Option Ty) : (elementType scopes current es).Narrows := by
  induction es generalizing current with
  | nil => simp [elementType]
  | cons e es ih =>
    rw [List.forall_mem_cons] at h
    simp [elementType, h.1, ih h.2]

/-- The texts of the elements warn only about narrowing, if each element does. -/
theorem narrows_elementTexts (element : Ty) : (elementTexts scopes element es).Narrows := by
  induction es with
  | nil => simp [elementTexts]
  | cons e es ih =>
    rw [List.forall_mem_cons] at h
    simp [elementTexts, h.1, ih h.2]

end Elements

/-- Initial values warn only about narrowing, those of nested arrays included. -/
@[simp] theorem narrows_initializer (target : Option Ty) (e : Expr) :
    (initializer scopes target e).Narrows := by
  induction e using inductionOnChildren generalizing target with
  | step e ih =>
    cases e with
    | null p =>
      unfold initializer
      split <;> simp
    | array elements p =>
      have ih : ∀ e ∈ elements, ∀ target, (initializer scopes target e).Narrows :=
        fun e he target => ih e he target
      unfold initializer
      cases target with
      | some type => simp [narrows_elementTexts scopes ih]
      | none =>
        simp only [Checked.narrows_bind_iff, narrows_elementType scopes ih, true_and]
        intro element _
        cases element <;> simp [narrows_elementTexts scopes ih]
    | _ => exact narrows_value scopes _

end Expr

section Plans

variable (scopes : Scopes)

/-- A call that may be unpacked warns as it does by itself. -/
@[simp] theorem narrows_unpackable? (count : Nat) (es : List Expr) :
    (unpackable? scopes count es).Narrows := by
  unfold unpackable?
  split
  · simp only [Checked.narrows_ite_iff, Checked.narrows_pure, Checked.narrows_bind_iff,
      Expr.narrows_value, implies_true, true_and]
    intro _ call _
    split <;> simp
  · simp

/-- The members of an unpacked call warn only if a target narrows one of them. -/
@[simp] theorem narrows_memberLines (p : Position) (index : Nat) (targets : List (String × Ty))
    (members : List Ty) : (memberLines p index targets members).Narrows := by
  induction targets generalizing index members with
  | nil => simp [memberLines]
  | cons target targets ih => cases members <;> simp [memberLines, ih]

/-- A call that is unpacked warns only if a target narrows one of its members. -/
@[simp] theorem narrows_unpack (call : Typed) (members : List Ty) (targets : List (String × Ty))
    (p : Position) : (unpack call members targets p).Narrows := by
  simp [unpack]

namespace Declaration

variable (d : Declaration)

@[simp] theorem narrows_planDefault (type : Option Ty) : (d.planDefault type).Narrows := by
  unfold planDefault
  cases type <;> simp

/-- A declaration that unpacks a call warns only about narrowing. -/
@[simp] theorem narrows_planUnpacked (type : Option Ty) (call : Typed) (members : List Ty)
    (p : Position) : (d.planUnpacked type call members p).Narrows := by
  simp [planUnpacked]

@[simp] theorem narrows_inferredType (value : Typed) (name : String) (p : Position) :
    (inferredType value name p).Narrows := by
  unfold inferredType
  split <;> simp

/-- The initial values of a declaration warn only about narrowing, each for itself. -/
@[simp] theorem narrows_initialValues (type : Option Ty) (es : List Expr) :
    (initialValues scopes type es).Narrows := by
  induction es with
  | nil => simp [initialValues]
  | cons e es ih => simp [initialValues, ih]

/-- The declaration of one name warns only if its type narrows its value. -/
@[simp] theorem narrows_planName (isConstant : Bool) (declared : Option Ty) (name : Token) (e : Expr)
    (value : Typed) : (planName isConstant declared name e value).Narrows := by
  unfold planName
  cases declared
  all_goals
    simp only [Checked.narrows_bind_iff, Checked.narrows_ite_iff, Checked.narrows_pure,
      narrows_inferredType, Typed.narrows_converted, implies_true, and_true, true_and]
    intros
    split <;> simp

/-- The declaration of several names warns only about narrowing. -/
@[simp] theorem narrows_planNames (isConstant : Bool) (declared : Option Ty)
    (entries : List (Token × Expr × Typed)) : (planNames isConstant declared entries).Narrows := by
  induction entries with
  | nil => simp [planNames]
  | cons entry entries ih => simp [planNames, ih]

/-- A declaration with initial values warns only about narrowing. -/
@[simp] theorem narrows_planInitialized (type : Option Ty) (first : Expr) :
    (d.planInitialized scopes type first).Narrows := by
  simp [planInitialized]

/-- Whatever a declaration is planned to be, it warns only about narrowing. The warning about a name
that it hides comes later. -/
@[simp] theorem narrows_plan : (d.plan scopes).Narrows := by
  unfold plan
  cases d.type
  all_goals
    simp only [Checked.narrows_bind_iff, Checked.narrows_pure, Expr.narrows_resolveType, true_and]
    intros
    split
    · simp
    · simp only [Checked.narrows_bind_iff, narrows_unpackable?, true_and]
      intros
      split <;> simp

end Declaration

namespace Assignment

variable (a : Assignment)

/-- The targets of an assignment warn only about narrowing. -/
@[simp] theorem narrows_places (es : List Expr) : (places scopes es).Narrows := by
  induction es with
  | nil => simp [places]
  | cons e es ih => simp [places, ih]

@[simp] theorem narrows_checkCount (targets : Nat) (values : List Expr) :
    (checkCount targets values).Narrows := by
  unfold checkCount
  split <;> simp

/-- A swap warns only about narrowing. -/
@[simp] theorem narrows_swap? (targets values : List Expr) (places : List Typed) :
    (swap? targets values places).Narrows := by
  unfold swap?
  repeat' split
  all_goals simp

/-- A plain assignment warns only about narrowing. -/
@[simp] theorem narrows_plainLines (pairs : List (Typed × Expr)) :
    (plainLines scopes pairs).Narrows := by
  induction pairs with
  | nil => simp [plainLines]
  | cons pair pairs ih => simp [plainLines, ih]

/-- A compound assignment warns only if its target narrows the result. -/
@[simp] theorem narrows_compoundLine (op : Arithmetic) (symbol : String) (place value : Typed)
    (p : Position) : (compoundLine op symbol place value p).Narrows := by
  simp [compoundLine]

/-- Several compound assignments warn only about narrowing. -/
@[simp] theorem narrows_compoundLines (op : Arithmetic) (symbol : String)
    (pairs : List (Typed × Expr)) : (compoundLines scopes op symbol pairs).Narrows := by
  induction pairs with
  | nil => simp [compoundLines]
  | cons pair pairs ih => simp [compoundLines, ih]

/-- An assignment of any form warns only about narrowing. -/
@[simp] theorem narrows_assignLines (places : List Typed) :
    (a.assignLines scopes places).Narrows := by
  simp only [assignLines, Checked.narrows_bind_iff, narrows_swap?, true_and]
  intro swapped _
  split
  · simp
  · simp only [Checked.narrows_bind_iff, narrows_unpackable?, true_and]
    intro unpacked _
    split <;> simp

/-- A whole assignment, with its targets, warns only about narrowing. -/
@[simp] theorem narrows_lines : (a.lines scopes).Narrows := by
  simp only [lines, Checked.narrows_bind_iff, narrows_places, true_and]
  intro places _
  split <;> simp

end Assignment

/-- Expressions evaluated for their effect warn only about narrowing. -/
@[simp] theorem narrows_operationLines (es : List Expr) : (operationLines scopes es).Narrows := by
  induction es with
  | nil => simp [operationLines]
  | cons e es ih => simp [operationLines, ih]

namespace Emission

/-- A condition warns only about narrowing. -/
@[simp] theorem narrows_condition (keyword : Token) (run : List Token) :
    (condition scopes keyword run).Narrows := by
  simp [condition]

@[simp] theorem narrows_loopType (start : Typed) (run : List Token) :
    (loopType scopes start run).Narrows := by
  unfold loopType
  split <;> simp

/-- A loop variable warns only if its type narrows its initial value. -/
@[simp] theorem narrows_declaringHeader (keyword : Token) (declaration : List Token) (e : Expr)
    (start : Typed) : (declaringHeader scopes keyword declaration e start).Narrows := by
  unfold declaringHeader
  split <;> simp

/-- A loop that reuses a variable warns only if that narrows the initial value. -/
@[simp] theorem narrows_reusingHeader (target : List Token) (e : Expr) (start : Typed) :
    (reusingHeader scopes target e start).Narrows := by
  simp [reusingHeader]

/-- A `for` header warns only about narrowing. -/
@[simp] theorem narrows_loopHeader (keyword : Token) (run : List Token) :
    (loopHeader scopes keyword run).Narrows := by
  simp only [loopHeader, Checked.narrows_bind_iff, Checked.narrows_monadLift_malformed, true_and]
  intro run _
  split
  · simp
  · simp only [Checked.narrows_bind_iff, Checked.narrows_monadLift_malformed, true_and]
    intro initial _ e _
    split <;> simp

/-- A block header of any kind warns only about narrowing. -/
@[simp] theorem narrows_headerOf (s : Statement) : (headerOf scopes s).Narrows := by
  unfold headerOf
  split <;> simp

/-- An `else` warns only about narrowing. It has a condition at most, and conditions do not even do
that. -/
@[simp] theorem narrows_alternativeOf (s : Statement) : (alternativeOf scopes s).Narrows := by
  unfold alternativeOf
  split <;> simp

/-- The bound and the step of a loop warn only about narrowing. Only where they are types does the
emission have more to say. -/
@[simp] theorem narrows_clauseValue (clause : Clause) (e : Expr) :
    (clauseValue scopes clause e).Narrows := by
  simp [clauseValue]

end Emission

end Plans

end Sprout
