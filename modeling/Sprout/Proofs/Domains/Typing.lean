import Sprout.Proofs.Domains.Folding

namespace Sprout

namespace Typed

variable {inner : Typed} {position : Position}

/-- A unary operator. The minus of a known whole number needs its opposite. -/
def applyUnary? (op : UnaryOp) (inner : Typed) (position : Position) :
    Checked (Option Violation) Typed := do
  let typed ← (applyUnary op inner position).mapError some
  match op, inner.constant with
  | .minus, some (.int value) => do
    let opposite ← Checked.demand (Constant.fit (-value))
    pure { typed with constant := some (.int opposite) }
  | _, _ => pure typed

/-- A conversion to a primitive type. It takes the first argument once it is bound. -/
def convert? (target : Primitive) (args : List Typed) (position : Position) :
    Checked (Option Violation) Typed := do
  let resolved ← ((Checked.lift (target.resolveConversion (args.map Typed.type))).mapError
    (·.orAt position)).mapError some
  let first ← Checked.demand args[0]?
  pure
    { text := resolved.target ++ "(" ++ first.text ++ ")"
      type := resolved.result
      constant := first.constant.bind (·.convert resolved.result) }

/-- A sign is applied without a crash to a value of fewer than 128 bits. Only the smallest number of
128 bits has no opposite in them. -/
theorem applyUnary?_eq (hsmall : inner.HasSmallValue) (op : UnaryOp) :
    applyUnary? op inner position = (applyUnary op inner position).mapError some := by
  rw [applyUnary?]
  split
  · rename_i value hvalue
    have hfit := Constant.negate_eq (hsmall _ hvalue value rfl)
    simp only [hfit, Checked.demand_some_bind]
    conv_rhs => rw [← Checked.bind_pure ((applyUnary .minus inner position).mapError some)]
    refine Checked.bind_congr_of_ok fun typed htyped => ?_
    rw [Checked.outcome_mapError_eq_ok_iff] at htyped
    obtain ⟨-, rfl⟩ := eq_of_applyUnary htyped
    rw [hvalue]
    rfl
  · exact Checked.bind_pure _

/-- A conversion is typed without a crash, since it is bound to a type only if it has an
argument. -/
theorem convert?_eq (target : Primitive) (args : List Typed) (position : Position) :
    convert? target args position = (convert target args position).mapError some := by
  rw [convert?, convert, Checked.mapError_bind]
  refine Checked.bind_congr_of_ok fun resolved hresolved => ?_
  simp only [Checked.outcome_mapError_eq_ok_iff, Checked.outcome_lift] at hresolved
  obtain ⟨source, htypes, -⟩ := Primitive.eq_of_resolveConversion hresolved
  obtain ⟨arg, rfl, -⟩ := List.map_eq_singleton_iff.1 htypes
  rfl

end Typed

namespace Expr

mutual
/-- Types an expression used as a value, with the partial operations of its steps. -/
def value? (scopes : Scopes) : Expr → Checked (Option Violation) Typed
  | call name args position => do
    let args ← values? scopes args
    (Typed.callFunction name args position).mapError some
  | index receiver offset => do
    let whole ← value? scopes receiver
    let selected ← value? scopes offset
    (Typed.elementAt whole selected offset.position).mapError some
  | field receiver name position => do
    let whole ← value? scopes receiver
    ((Fault.noMember whole.type name).raise position).mapError some
  | method receiver name args position => do
    let whole ← value? scopes receiver
    let args ← values? scopes args
    (Typed.callMethod whole name args position).mapError some
  | convert name [] args position => do
    let args ← values? scopes args
    Typed.convert? name args position
  | unary op inner position => do
    let inner ← value? scopes inner
    Typed.applyUnary? op inner position
  | stepBefore op inner position => do
    let inner ← value? scopes inner
    (Typed.applyStep op false inner position).mapError some
  | stepAfter op inner position => do
    let inner ← value? scopes inner
    (Typed.applyStep op true inner position).mapError some
  | binary op left right position => do
    let left ← value? scopes left
    let right ← value? scopes right
    (Typed.applyBinary op left right position).mapError some
  | other => (value scopes other).mapError some
/-- Types several expressions used as values, in order, with the partial operations of their
steps. -/
def values? (scopes : Scopes) : List Expr → Checked (Option Violation) (List Typed)
  | [] => pure []
  | e :: es => do
    let head ← value? scopes e
    let tail ← values? scopes es
    pure (head :: tail)
end

variable {scopes : Scopes} {e : Expr}

/-- Several expressions are typed without a crash if each one is. -/
theorem values?_eq {es : List Expr}
    (h : ∀ e ∈ es, value? scopes e = (value scopes e).mapError some) :
    values? scopes es = (values scopes es).mapError some := by
  induction es with
  | nil => rfl
  | cons e es ih =>
    rw [List.forall_mem_cons] at h
    simp only [values?, values, h.1, ih h.2, Checked.mapError_bind, Checked.mapError_pure]

/-- Typing an expression crashes nowhere: the values of the symbols are small, and so are the
numbers that stand in the expression. Neither the opposite of a number nor the first argument of a
conversion is ever missing. -/
theorem value?_eq (hscopes : scopes.Every Symbol.HasSmallValue) (hnumbers : e.HasSmallNumbers) :
    value? scopes e = (value scopes e).mapError some := by
  induction e using inductionOnChildren with
  | step e ih =>
    have hchildren : ∀ part ∈ e.children, value? scopes part = (value scopes part).mapError some :=
      fun part hpart => ih part hpart (hnumbers.child hpart)
    cases e with
    | number | literal | null | array | ident | typeName => simp only [value?]
    | call name args p =>
      have hargs : values? scopes args = (values scopes args).mapError some := values?_eq hchildren
      simp only [value?, value, hargs, Checked.mapError_bind]
    | index receiver offset =>
      have hreceiver := hchildren receiver (by simp [children])
      have hoffset := hchildren offset (by simp [children])
      simp only [value?, value, hreceiver, hoffset, Checked.mapError_bind]
    | field receiver name p =>
      have hreceiver := hchildren receiver (by simp [children])
      simp only [value?, value, hreceiver, Checked.mapError_bind]
    | method receiver name args p =>
      rw [children, List.forall_mem_cons] at hchildren
      obtain ⟨hreceiver, hargs⟩ := hchildren
      simp only [value?, value, hreceiver, values?_eq hargs, Checked.mapError_bind]
    | convert name sizes args p =>
      cases sizes with
      | cons => simp only [value?]
      | nil =>
        have hargs := values?_eq fun arg harg => hchildren arg (by simpa [children] using harg)
        simp only [value?, value, hargs, Typed.convert?_eq, Checked.mapError_bind]
    | unary op operand p =>
      have hoperand := hchildren operand (by simp [children])
      rw [value?, value, hoperand, Checked.mapError_bind]
      refine Checked.bind_congr_of_ok fun inner hinner => ?_
      rw [Checked.outcome_mapError_eq_ok_iff] at hinner
      exact Typed.applyUnary?_eq
        (hasSmallValue_of_value hscopes (hnumbers.child (by simp [children])) hinner) op
    | stepBefore op operand p | stepAfter op operand p =>
      have hoperand := hchildren operand (by simp [children])
      simp only [value?, value, hoperand, Checked.mapError_bind]
    | binary op left right p =>
      have hleft := hchildren left (by simp [children])
      have hright := hchildren right (by simp [children])
      simp only [value?, value, hleft, hright, Checked.mapError_bind]

end Expr

end Sprout
