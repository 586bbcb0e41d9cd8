import Sprout.Proofs.Parsing.Completeness
import Sprout.Proofs.Typing.Parts

namespace Sprout

variable (f : Position → Position)

/-- The token at another position. -/
def Token.relocate (t : Token) : Token :=
  { t with position := f t.position }

/-- The cause with its place, if it has one, at another position. -/
def Located.relocate {κ : Type} (x : Located κ) : Located κ :=
  { x with position := x.position.map f }

/-- The diagnostic at another position. -/
def Diagnostic.relocate (d : Diagnostic) : Diagnostic :=
  { d with position := d.position.map f }

/-- The check with its refusal and its warnings at other positions. -/
def Checked.relocate {α : Type} (x : Check α) : Check α :=
  ⟨x.outcome.mapError (Located.relocate f), x.warnings.map (Diagnostic.relocate f)⟩

namespace Expr

mutual
/-- The expression with all its positions moved. -/
def relocate : Expr → Expr
  | binary op left right p => binary op (relocate left) (relocate right) (f p)
  | unary op operand p => unary op (relocate operand) (f p)
  | stepBefore op operand p => stepBefore op (relocate operand) (f p)
  | stepAfter op operand p => stepAfter op (relocate operand) (f p)
  | ident name p => ident name (f p)
  | call name args p => call name (relocateAll args) (f p)
  | index receiver offset => index (relocate receiver) (relocate offset)
  | field receiver name p => field (relocate receiver) name (f p)
  | method receiver name args p => method (relocate receiver) name (relocateAll args) (f p)
  | number value p => number value (f p)
  | literal value p => literal value (f p)
  | null p => null (f p)
  | typeName name dimensions p => typeName name (relocateSizes dimensions) (f p)
  | convert name dimensions args p =>
    convert name (relocateSizes dimensions) (relocateAll args) (f p)
  | array elements p => array (relocateAll elements) (f p)
/-- Several expressions with all their positions moved. -/
def relocateAll : List Expr → List Expr
  | [] => []
  | e :: es => relocate e :: relocateAll es
/-- The sizes of dimensions with all their positions moved. -/
def relocateSizes : List (Option Expr) → List (Option Expr)
  | [] => []
  | none :: rest => none :: relocateSizes rest
  | some size :: rest => some (relocate size) :: relocateSizes rest
end

@[simp] theorem relocateAll_eq (es : List Expr) : relocateAll f es = es.map (relocate f) := by
  induction es with
  | nil => rfl
  | cons e es ih => rw [relocateAll, ih, List.map_cons]

@[simp] theorem relocateSizes_eq (sizes : List (Option Expr)) :
    relocateSizes f sizes = sizes.map (Option.map (relocate f)) := by
  induction sizes with
  | nil => rfl
  | cons size sizes ih => cases size <;> rw [relocateSizes, ih] <;> rfl

@[simp] theorem position_relocate (e : Expr) : (e.relocate f).position = f e.position := by
  induction e using inductionOnChildren with
  | step e ih =>
    cases e with
    | index receiver offset => exact ih receiver (by simp [children])
    | field receiver name p => exact ih receiver (by simp [children])
    | method receiver name args p => exact ih receiver (by simp [children])
    | _ => rfl

@[simp] theorem name?_relocate (e : Expr) : (e.relocate f).name? = e.name? := by
  cases e <;> rfl

@[simp] theorem isCallChain_relocate (e : Expr) : (e.relocate f).isCallChain = e.isCallChain := by
  induction e using inductionOnChildren with
  | step e ih =>
    cases e with
    | index receiver offset => exact ih receiver (by simp [children])
    | field receiver name p => exact ih receiver (by simp [children])
    | method receiver name args p => exact ih receiver (by simp [children])
    | _ => rfl

/-- Several expressions mention a name elsewhere if each one mentions it elsewhere as here. -/
theorem mentionsAny_relocate {name : String} {es : List Expr}
    (h : ∀ e ∈ es, (e.relocate f).mentions name = e.mentions name) :
    mentionsAny name (es.map (relocate f)) = mentionsAny name es := by
  induction es with
  | nil => rfl
  | cons e es ih =>
    rw [List.forall_mem_cons] at h
    rw [List.map_cons, mentionsAny, mentionsAny, h.1, ih h.2]

/-- The sizes of an array type mention a name elsewhere if each one mentions it elsewhere as
here. -/
theorem mentionsDimension_relocate {name : String} {sizes : List (Option Expr)}
    (h : ∀ e ∈ sizes.reduceOption, (e.relocate f).mentions name = e.mentions name) :
    mentionsDimension name (sizes.map (Option.map (relocate f))) = mentionsDimension name sizes := by
  induction sizes with
  | nil => rfl
  | cons size sizes ih =>
    cases size with
    | none => exact ih h
    | some size =>
      rw [List.reduceOption_cons_of_some, List.forall_mem_cons] at h
      rw [List.map_cons, Option.map_some, mentionsDimension, mentionsDimension, h.1, ih h.2]

/-- An expression mentions the same names wherever it stands, by induction on the expression. -/
@[simp] theorem mentions_relocate (name : String) (e : Expr) :
    (e.relocate f).mentions name = e.mentions name := by
  induction e using inductionOnChildren with
  | step e ih =>
    cases e with
    | binary | unary | stepBefore | stepAfter | index | field =>
      simp only [children, List.forall_mem_cons] at ih
      simp [relocate, mentions, ih]
    | call | array =>
      simp only [relocate, relocateAll_eq, mentions]
      exact mentionsAny_relocate f ih
    | method =>
      simp only [children, List.forall_mem_cons] at ih
      simp only [relocate, relocateAll_eq, mentions]
      rw [ih.1, mentionsAny_relocate f ih.2]
    | typeName =>
      simp only [relocate, relocateSizes_eq, mentions]
      exact mentionsDimension_relocate f ih
    | convert =>
      simp only [children, List.forall_mem_append] at ih
      simp only [relocate, relocateSizes_eq, relocateAll_eq, mentions]
      rw [mentionsAny_relocate f ih.1, mentionsDimension_relocate f ih.2]
    | ident | number | literal | null => rfl

end Expr

variable {α β : Type}

@[simp] theorem Checked.relocate_pure (a : α) :
    Checked.relocate f (pure a : Check α) = pure a := rfl

/-- The warnings and the refusal of two checks, one behind the other, are moved part by part. -/
@[simp] theorem Checked.relocate_bind (x : Check α) (next : α → Check β) :
    Checked.relocate f (x >>= next) = Checked.relocate f x >>= fun a => (next a).relocate f := by
  obtain ⟨outcome, warnings⟩ := x
  change (andThen _ _).relocate f = andThen _ _
  cases outcome with
  | error e => rfl
  | ok a => simp [andThen, Checked.relocate, Except.mapError]

@[simp] theorem Checked.relocate_raise (fault : Fault) (p : Position) :
    Checked.relocate f (fault.raise p : Check α) = fault.raise (f p) := rfl

@[simp] theorem Checked.relocate_warnPrecision (source target : Ty) (p : Position) :
    Checked.relocate f (warnPrecision source target p) = warnPrecision source target (f p) := rfl

/-- Of a step that cannot warn, the refusal is moved. -/
@[simp] theorem Checked.relocate_lift (x : Except Violation α) :
    Checked.relocate f (.lift x) = .lift (x.mapError (Located.relocate f)) := rfl

/-- A refusal without a place is blamed on the place at hand, wherever that is. -/
theorem Checked.relocate_orAt {x : Except Violation α} {p : Position}
    (h : ∀ v, x = .error v → v.position = none) :
    Checked.relocate f ((Checked.lift x).mapError (·.orAt p)) =
      (Checked.lift x).mapError (·.orAt (f p)) := by
  cases x with
  | ok a => rfl
  | error v =>
    obtain ⟨cause, position⟩ := v
    cases h _ rfl
    rfl

namespace Typed

variable (typed receiver offset inner left right : Typed) (args : List Typed) (p : Position)

@[simp] theorem mapError_checkModifiable :
    (typed.checkModifiable p).mapError (Located.relocate f) = typed.checkModifiable (f p) := by
  unfold checkModifiable
  split
  · rfl
  · repeat' split
    all_goals rfl

/-- Whether a value may be stored does not depend on where it stands. The warning about it does. -/
@[simp] theorem relocate_checkAssign (target : Ty) :
    Checked.relocate f (typed.checkAssign target p) = typed.checkAssign target (f p) := by
  unfold checkAssign
  split
  · rfl
  · split
    · rfl
    · dsimp only
      split <;> rfl
    · rfl

/-- A value is converted in the same way wherever it stands. -/
@[simp] theorem relocate_converted (target : Ty) :
    Checked.relocate f (typed.converted target p) = typed.converted target (f p) := by
  simp only [converted, Checked.relocate_bind, relocate_checkAssign]
  congr
  funext fit
  split <;> rfl

@[simp] theorem relocate_ofNumber (number : Number) :
    Checked.relocate f (ofNumber number p) = ofNumber number (f p) := by
  unfold ofNumber
  split
  · rfl
  all_goals split <;> rfl

@[simp] theorem relocate_ofLiteral (literal : Literal) :
    Checked.relocate f (ofLiteral literal p) = ofLiteral literal (f p) := by
  unfold ofLiteral
  split
  · rfl
  · split <;> rfl
  · rfl

@[simp] theorem relocate_ofName (scopes : Scopes) (name : String) :
    Checked.relocate f (ofName scopes name p) = ofName scopes name (f p) := by
  unfold ofName
  split <;> rfl

/-- An element is found by its index wherever it is asked for, and refused where it is asked for. -/
@[simp] theorem relocate_elementAt :
    Checked.relocate f (elementAt receiver offset p) = elementAt receiver offset (f p) := by
  unfold elementAt
  split
  · rfl
  · split
    · rfl
    · dsimp only
      repeat' split
      all_goals rfl

/-- The warnings about arguments that lose something all stand where the call does. -/
@[simp] theorem relocate_warnNarrowed (element : Option Ty) (indexes : List Nat) :
    Checked.relocate f (warnNarrowed element args p indexes) =
      warnNarrowed element args (f p) indexes := by
  induction indexes with
  | nil => rfl
  | cons index indexes ih =>
    unfold warnNarrowed
    split
    · dsimp only
      split <;> simp [ih]
    · simp [ih]

/-- A call that has been resolved has the same text and type wherever it stands. -/
@[simp] theorem relocate_call (target : Option Typed) (resolved : Resolved) :
    Checked.relocate f (call target resolved args p) = call target resolved args (f p) := by
  simp [call]

/-- A call that fits no signature is refused without a place. The caller knows where it stands. -/
theorem position_of_resolve {call : Signature} {v : Violation} (h : call.resolve = .error v) :
    v.position = none := by
  unfold Signature.resolve at h
  dsimp only at h
  split at h <;> cases h
  rfl

/-- A conversion that fits no signature is refused without a place as well. -/
theorem position_of_resolveConversion {target : Primitive} {types : List Ty} {v : Violation}
    (h : target.resolveConversion types = .error v) : v.position = none := by
  unfold Primitive.resolveConversion at h
  dsimp only at h
  repeat' split at h
  all_goals cases h <;> rfl

/-- A call is bound to a signature by the types of its arguments, and refused where it stands. -/
@[simp] theorem relocate_bindCall (target : Option Typed) (name : String) :
    Checked.relocate f (bindCall target name args p) = bindCall target name args (f p) :=
  Checked.relocate_orAt f fun _ => position_of_resolve

/-- A function is called alike wherever the call stands. -/
@[simp] theorem relocate_callFunction (name : String) :
    Checked.relocate f (callFunction name args p) = callFunction name args (f p) := by
  simp [callFunction]

/-- A method is called alike wherever the call stands. -/
@[simp] theorem relocate_callMethod (name : String) :
    Checked.relocate f (callMethod receiver name args p) = callMethod receiver name args (f p) := by
  unfold callMethod
  split
  · split <;> simp
  · simp only [Checked.relocate_bind, relocate_bindCall]
    congr
    funext resolved
    split <;> simp

/-- A conversion is typed alike wherever it stands. -/
@[simp] theorem relocate_convert (target : Primitive) :
    Checked.relocate f (convert target args p) = convert target args (f p) := by
  simp only [convert, Checked.relocate_bind,
    Checked.relocate_orAt f fun _ => position_of_resolveConversion, Checked.relocate_pure]

/-- A sign is applied alike wherever it stands. -/
@[simp] theorem relocate_applyUnary (op : UnaryOp) :
    Checked.relocate f (applyUnary op inner p) = applyUnary op inner (f p) := by
  cases op <;> simp only [applyUnary] <;> split <;> rfl

/-- A step is applied alike wherever it stands. -/
@[simp] theorem relocate_applyStep (op : StepOp) (after : Bool) :
    Checked.relocate f (applyStep op after inner p) = applyStep op after inner (f p) := by
  unfold applyStep
  split
  · rfl
  · simp only [Checked.relocate_bind, Checked.relocate_lift, mapError_checkModifiable]
    congr
    funext _
    split <;> rfl

/-- An operator is applied alike wherever it stands. -/
@[simp] theorem relocate_applyBinary (op : BinaryOp) :
    Checked.relocate f (applyBinary op left right p) = applyBinary op left right (f p) := by
  unfold applyBinary
  split
  · rfl
  · split <;> rfl

end Typed

namespace Expr

variable (scopes : Scopes)

/-- Several expressions are typed elsewhere as here if each one is. This is the step of the
induction on expressions. -/
theorem values_relocate {es : List Expr}
    (h : ∀ e ∈ es, (e.relocate f).value scopes = (e.value scopes).relocate f) :
    values scopes (es.map (relocate f)) = (values scopes es).relocate f := by
  induction es with
  | nil => rfl
  | cons e es ih =>
    rw [List.forall_mem_cons] at h
    simp [values, h.1, ih h.2]

/-- An expression at other positions has the same value, with the same refusals and warnings, moved
likewise. One case for each form of expressions, by induction. -/
theorem value_relocate (e : Expr) : (e.relocate f).value scopes = (e.value scopes).relocate f := by
  induction e using inductionOnChildren with
  | step e ih =>
    cases e with
    | binary | unary | stepBefore | stepAfter | index | field =>
      simp only [children, List.forall_mem_cons] at ih
      simp [relocate, value, ih]
    | call name args p =>
      have hargs : ∀ e ∈ args, (e.relocate f).value scopes = (e.value scopes).relocate f := ih
      simp [relocate, value, values_relocate f scopes hargs]
    | method =>
      simp only [children, List.forall_mem_cons] at ih
      simp [relocate, value, ih.1, values_relocate f scopes ih.2]
    | convert name sizes args p =>
      cases sizes with
      | nil =>
        simp only [children, List.reduceOption_nil, List.append_nil] at ih
        simp [relocate, value, values_relocate f scopes ih]
      | cons => simp [relocate, value]
    | array | null | typeName | ident | number | literal => simp [relocate, value]

/-- The size of a dimension is the same number elsewhere. -/
theorem dimension_relocate (size : Expr) :
    dimension scopes (size.relocate f) = (dimension scopes size).relocate f := by
  simp only [dimension, value_relocate, Checked.relocate_bind, position_relocate]
  congr
  funext typed
  repeat' split
  all_goals rfl

/-- A type with dimensions is the same type elsewhere, by induction on the dimensions. -/
theorem dimensioned_relocate (base : Ty) (sizes : List (Option Expr)) :
    dimensioned scopes base (sizes.map (Option.map (relocate f))) =
      (dimensioned scopes base sizes).relocate f := by
  induction sizes with
  | nil => rfl
  | cons level sizes ih =>
    simp only [List.map_cons, dimensioned, ih, Checked.relocate_bind]
    congr
    funext element
    cases level with
    | none => rfl
    | some size => simp [dimension_relocate]

/-- A type at other positions is resolved the same way. -/
theorem resolveType_relocate (e : Expr) :
    resolveType scopes (e.relocate f) = (resolveType scopes e).relocate f := by
  cases e with
  | typeName name sizes p =>
    simp only [relocate, relocateSizes_eq]
    cases name with
    | void => rfl
    | _ => exact dimensioned_relocate f scopes _ sizes
  | _ => exact congrArg Fault.notAType.raise (position_relocate f _)

/-- The type that two elements share depends on their types alone. -/
theorem relocate_joinElement (current : Option Ty) (next : Ty) (p : Position) :
    Checked.relocate f (joinElement current next p) = joinElement current next (f p) := by
  unfold joinElement
  repeat' split
  all_goals rfl

/-- The type that is asked of each element depends on the type of the array and on the number of
elements. -/
theorem relocate_arrayTarget (target : Ty) (count : Nat) (p : Position) :
    Checked.relocate f (arrayTarget target count p) = arrayTarget target count (f p) := by
  unfold arrayTarget
  repeat' split
  all_goals rfl

section Elements

variable {es : List Expr} (h : ∀ e ∈ es, ∀ target,
  (e.relocate f).initializer scopes target = (e.initializer scopes target).relocate f)

include h

/-- The type of the elements is the same elsewhere, if each of them is typed elsewhere as here. -/
theorem elementType_relocate (current : Option Ty) :
    elementType scopes current (es.map (relocate f)) =
      (elementType scopes current es).relocate f := by
  induction es generalizing current with
  | nil => rfl
  | cons e es ih =>
    rw [List.forall_mem_cons] at h
    simp [elementType, h.1, ih h.2, relocate_joinElement]

/-- The texts of the elements are the same elsewhere, if each of them is typed elsewhere as here. -/
theorem elementTexts_relocate (element : Ty) :
    elementTexts scopes element (es.map (relocate f)) =
      (elementTexts scopes element es).relocate f := by
  induction es with
  | nil => rfl
  | cons e es ih =>
    rw [List.forall_mem_cons] at h
    simp [elementTexts, h.1, ih h.2]

end Elements

/-- An initializer at other positions comes to the same type and text, with the same refusals and
warnings at the positions that result. -/
theorem initializer_relocate (e : Expr) (target : Option Ty) :
    (e.relocate f).initializer scopes target = (e.initializer scopes target).relocate f := by
  induction e using inductionOnChildren generalizing target with
  | step e ih =>
    cases e with
    | null p => cases target <;> rfl
    | array elements p =>
      have hparts : ∀ e ∈ elements, ∀ target,
        (e.relocate f).initializer scopes target = (e.initializer scopes target).relocate f := ih
      have helements := elementTexts_relocate f scopes hparts
      cases target with
      | some asked =>
        simp [relocate, initializer, helements, relocate_arrayTarget]
      | none =>
        simp only [relocate, relocateAll_eq, initializer, Checked.relocate_bind,
          elementType_relocate f scopes hparts]
        congr
        funext joined
        cases joined <;> simp [helements]
    | _ => exact value_relocate f scopes _

end Expr

end Sprout
