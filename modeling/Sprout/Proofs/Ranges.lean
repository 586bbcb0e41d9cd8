import Sprout.Proofs.Domains.Folding
import Sprout.Proofs.Parsing.Shapes

namespace Sprout

/-- Whether a constant, if it is a whole number of an integer type, lies in the range of the type.
Whatever makes a constant converts it to a type: a declaration to the declared one, an operator to
that of the operation, a constructor to the one it names. -/
def Constant.Fits (c : Constant) (type : Ty) : Prop :=
  ∀ p value, type = .primitive p → p.isInteger = true → c = .int value →
    p.holdsInteger value = true

/-- What a place holds lies in the range of its type. -/
theorem Constant.fits_of_convert {c converted : Constant} {type : Ty}
    (h : c.convert type = some converted) : converted.Fits type := by
  rintro p value rfl - rfl
  obtain ⟨q, hq, hholds⟩ := exists_of_convert h
  cases hq
  exact hholds

/-- A value of an integer type has an opposite in 128 bits. -/
theorem Constant.negate_eq_neg {value : Int} (h : value.natAbs < 2 ^ 64) :
    negate value = -value := by
  have hfit := negate_eq h
  unfold fit at hfit
  split at hfit
  · exact (Option.some.inj hfit).symm
  · cases hfit

/-- Whether the value of a symbol, if it is known, lies in the range of its declared type. -/
def Symbol.Fits (symbol : Symbol) : Prop :=
  ∀ c, symbol.constant = some c → c.Fits symbol.type

/-- Whether the value of an expression, if it is known, lies in the range of its type. -/
def Typed.Fits (typed : Typed) : Prop :=
  ∀ c, typed.constant = some c → c.Fits typed.type

/-- Whether a literal, if it is a whole number, has a value of its type. -/
def Number.Fits : Number → Prop
  | integer type value => type.holdsInteger value = true
  | _ => True

namespace Expr

/-- The whole numbers that stand anywhere in an expression are values of their types. -/
def NumbersFit (e : Expr) : Prop :=
  ∀ number position, Within (.number number position) e → number.Fits

/-- Numbers that fit their types do so in the parts of an expression. -/
theorem NumbersFit.child {e part : Expr} (h : NumbersFit e) (hchild : part ∈ e.children) :
    NumbersFit part :=
  fun _ _ hwithin => h _ _ (.child hchild hwithin)

/-- An expression has numbers that fit if it is one or is none, and those of its parts do. -/
theorem NumbersFit.mk {e : Expr} (hown : ∀ number position, e = .number number position → number.Fits)
    (hparts : ∀ part ∈ e.children, NumbersFit part) : NumbersFit e := by
  intro number position hwithin
  cases hwithin with
  | self => exact hown number position rfl
  | child hchild hwithin => exact hparts _ hchild number position hwithin

/-- The literal of a value of at most 64 bits has a type that holds it. -/
theorem fits_ofNat {n : Nat} (h : n < 2 ^ 64) : (Number.ofNat n).Fits := by
  unfold Number.ofNat
  split
  · assumption
  · split
    · assumption
    · simp only [Number.Fits, Primitive.holdsInteger, Primitive.integerRange, Primitive.isInteger,
        Primitive.isSigned, Primitive.bits]
      simp
      omega

/-- The numbers in an expression that was read are values of their types: they are small, and have
the narrowest type for their value. -/
theorem IsRead.numbersFit {e : Expr} (h : IsRead e) (hspelled : WellSpelled e) : NumbersFit e := by
  intro number position hwithin
  cases number with
  | single | double => trivial
  | integer type value =>
    have hsmall := h.hasSmallNumbers type value position hwithin
    obtain ⟨n, hnat⟩ := hspelled _ hwithin
    have hvalue : value = n := by
      unfold Number.ofNat at hnat
      split at hnat
      · cases hnat
        rfl
      · split at hnat <;> cases hnat <;> rfl
    rw [hnat]
    exact fits_ofNat (by omega)

/-- The expression behind all signs in front. -/
def unsigned : Expr → Expr
  | unary .plus inner _ => inner.unsigned
  | unary .minus inner _ => inner.unsigned
  | other => other

/-- Whether an expression takes the opposite of what stands behind the signs in front: an odd number
of them are minus signs. -/
def isOpposite : Expr → Bool
  | unary .plus inner _ => inner.isOpposite
  | unary .minus inner _ => !inner.isOpposite
  | _ => false

variable {scopes : Scopes} {e : Expr} {typed : Typed}

/-- Without a sign in front, a known value lies in the range of its type: it is read, looked up or
converted to the type. -/
theorem fits_of_value (hscopes : scopes.Every Symbol.Fits) (hnumbers : e.NumbersFit)
    (hplus : ∀ inner position, e ≠ .unary .plus inner position)
    (hminus : ∀ inner position, e ≠ .unary .minus inner position)
    (h : (e.value scopes).outcome = .ok typed) : typed.Fits := by
  refine known_of_value (P := Constant.Fits) ?_ (fun _ _ _ => Constant.fits_of_convert) ?_ hscopes
    hplus hminus h
  · rintro c type hother p value - - rfl
    exact absurd rfl (hother value)
  · rintro type v position rfl p own hp - hvalue
    cases hp
    cases hvalue
    exact hnumbers _ position .self

/-- A plus sign keeps the type and the known value of its operand. -/
theorem exists_of_value_plus {inner : Expr} {position : Position}
    (h : ((unary .plus inner position).value scopes).outcome = .ok typed) :
    ∃ operand, (inner.value scopes).outcome = .ok operand ∧ typed.type = operand.type ∧
      typed.constant = operand.constant := by
  cases ValueStep.of_value h with
  | @unary _ _ _ operand hoperand happly =>
    obtain ⟨-, rfl⟩ := Typed.eq_of_applyUnary happly
    refine ⟨operand, hoperand, rfl, ?_⟩
    cases operand.constant <;> rfl

/-- A minus sign keeps the type of its operand, and takes the opposite of a known whole number in
128 bits. -/
theorem exists_of_value_minus {inner : Expr} {position : Position} {v : Int}
    (h : ((unary .minus inner position).value scopes).outcome = .ok typed)
    (hconstant : typed.constant = some (.int v)) :
    ∃ operand w, (inner.value scopes).outcome = .ok operand ∧ typed.type = operand.type ∧
      operand.constant = some (.int w) ∧ v = Constant.negate w := by
  cases ValueStep.of_value h with
  | @unary _ _ _ operand hoperand happly =>
    obtain ⟨-, rfl⟩ := Typed.eq_of_applyUnary happly
    obtain ⟨known, hknown, hfolded⟩ := Option.bind_eq_some_iff.1 hconstant
    cases known with
    | int w =>
      cases hfolded
      exact ⟨operand, w, hoperand, rfl, hknown, rfl⟩
    | float | bool | char | str => cases hfolded

/-- A known whole number is, up to the signs in front, a value of the type of its expression. -/
theorem exists_of_value_unsigned {p : Primitive} {v : Int} (hscopes : scopes.Every Symbol.Fits)
    (hnumbers : e.NumbersFit) (h : (e.value scopes).outcome = .ok typed)
    (htype : typed.type = .primitive p) (hinteger : p.isInteger = true)
    (hconstant : typed.constant = some (.int v)) :
    ∃ inner w, (e.unsigned.value scopes).outcome = .ok inner ∧ inner.type = .primitive p ∧
      inner.constant = some (.int w) ∧ p.holdsInteger w = true ∧
      v = if e.isOpposite then -w else w := by
  induction e using unsigned.induct generalizing typed v with
  | case1 inner position ih =>
    obtain ⟨operand, hoperand, hsame, hknown⟩ := exists_of_value_plus h
    rw [hsame] at htype
    rw [hknown] at hconstant
    exact ih (hnumbers.child (by simp [children])) hoperand htype hconstant
  | case2 inner position ih =>
    obtain ⟨operand, w, hoperand, hsame, hknown, rfl⟩ := exists_of_value_minus h hconstant
    rw [hsame] at htype
    obtain ⟨base, u, hbase, hbaseType, hbaseKnown, hholds, hw⟩ :=
      ih (hnumbers.child (by simp [children])) hoperand htype hknown
    have hsmall := Primitive.natAbs_lt_of_holdsInteger hholds
    -- The signs so far have not changed the size, so this one does not wrap around.
    have hopposite : Constant.negate w = -w := by
      apply Constant.negate_eq_neg
      rw [hw]
      split <;> omega
    refine ⟨base, u, hbase, hbaseType, hbaseKnown, hholds, ?_⟩
    rw [hopposite, hw]
    cases hodd : inner.isOpposite <;> simp [isOpposite, hodd]
  | case3 e hplus hminus =>
    have hfits := fits_of_value hscopes hnumbers hplus hminus h
    have hunsigned : e.unsigned = e := by rw [unsigned] <;> assumption
    have hopposite : e.isOpposite = false := by rw [isOpposite] <;> assumption
    rw [hunsigned, hopposite]
    exact ⟨typed, v, h, htype, hconstant, hfits _ hconstant p v htype hinteger rfl, rfl⟩

/-- A known whole number is a value of the type of its expression, or else an odd number of minus
signs takes the opposite of one that the type holds without holding the opposite. A sign keeps the
type of its operand and does not look at the range. -/
theorem holdsInteger_of_value {p : Primitive} {v : Int} (hscopes : scopes.Every Symbol.Fits)
    (hnumbers : e.NumbersFit) (h : (e.value scopes).outcome = .ok typed)
    (htype : typed.type = .primitive p) (hinteger : p.isInteger = true)
    (hconstant : typed.constant = some (.int v)) :
    p.holdsInteger v = true ∨
      e.isOpposite = true ∧ ∃ inner w, (e.unsigned.value scopes).outcome = .ok inner ∧
        inner.type = .primitive p ∧ inner.constant = some (.int w) ∧ p.holdsInteger w = true ∧
        v = -w ∧ p.holdsInteger (-w) = false := by
  obtain ⟨inner, w, hinner, hsame, hknown, hholds, hv⟩ :=
    exists_of_value_unsigned hscopes hnumbers h htype hinteger hconstant
  cases hopposite : e.isOpposite with
  | false =>
    have hvalue : v = w := by simpa [hopposite] using hv
    exact .inl (hvalue ▸ hholds)
  | true =>
    have hvalue : v = -w := by simpa [hopposite] using hv
    cases hrange : p.holdsInteger (-w) with
    | false => exact .inr ⟨rfl, inner, w, hinner, hsame, hknown, hholds, hvalue, hrange⟩
    | true => exact .inl (hvalue ▸ hrange)

/-- A scope with the constant `ten` of a type. -/
private def tenOf (type : Primitive) : Scopes :=
  ⟨⟨.global, [("ten", ⟨.primitive type, some (.int 10), false⟩)]⟩, []⟩

/-- The constant of the scopes fits its type, whichever that is. -/
private theorem tenOf_fits {type : Primitive} (h : type.holdsInteger 10 = true) :
    (tenOf type).Every Symbol.Fits := by
  intro scope hscope entry hentry
  simp only [tenOf, Scopes.all, List.mem_singleton] at hscope
  subst hscope
  simp only [List.mem_singleton] at hentry
  subst hentry
  rintro c hc p value hp - rfl
  cases hc
  cases hp
  exact h

/-- The expression `-(ten + 5)`. -/
private def minusFifteen : Expr :=
  .unary .minus (.binary (.arithmetic .add) (.ident "ten" ⟨1, 3⟩) (.number (.integer .i32 5) ⟨1, 9⟩)
    ⟨1, 7⟩) ⟨1, 1⟩

/-- The literals of the expression fit their types. -/
private theorem minusFifteen_numbersFit : minusFifteen.NumbersFit := by
  have hname : NumbersFit (.ident "ten" ⟨1, 3⟩) := .mk (by simp) (by simp [children])
  have hnumber : NumbersFit (.number (.integer .i32 5) ⟨1, 9⟩) := by
    refine .mk (fun number position heq => ?_) (by simp [children])
    cases heq
    rfl
  have hsum : NumbersFit (.binary (.arithmetic .add) (.ident "ten" ⟨1, 3⟩)
      (.number (.integer .i32 5) ⟨1, 9⟩) ⟨1, 7⟩) :=
    .mk (by simp) (by simpa [children] using ⟨hname, hnumber⟩)
  exact .mk (by simp [minusFifteen]) (by simpa [minusFifteen, children] using hsum)

/-- The opposite of the sum is known, and in the range of its signed type. -/
theorem minusFifteen_holdsInteger :
    ∃ typed, (minusFifteen.value (tenOf .i32)).outcome = .ok typed ∧
      typed.type = .primitive .i32 ∧ typed.constant = some (.int (-15)) ∧
      (Primitive.i32.holdsInteger (-15) = true ∨
        minusFifteen.isOpposite = true ∧ ∃ inner w,
          (minusFifteen.unsigned.value (tenOf .i32)).outcome = .ok inner ∧
          inner.type = .primitive .i32 ∧ inner.constant = some (.int w) ∧
          Primitive.i32.holdsInteger w = true ∧ -15 = -w ∧
          Primitive.i32.holdsInteger (-w) = false) := by
  have hvalue : (do
      let typed ← (minusFifteen.value (tenOf .i32)).outcome
      pure (typed.type, typed.constant)).toOption =
        some (.primitive .i32, some (.int (-15))) := by decide +kernel
  obtain ⟨typed, htyped, heq⟩ := bind_eq_ok_iff.1 (eq_ok_of_toOption hvalue)
  obtain ⟨htype, hconstant⟩ := Prod.mk.inj (Except.ok.inj heq)
  exact ⟨typed, htyped, htype, hconstant, holdsInteger_of_value (tenOf_fits (by decide))
    minusFifteen_numbersFit htyped htype (by decide) hconstant⟩

/-- With `ten` of type `u64` the sum has that type too, and so has its opposite. -/
theorem minusFifteen_outside :
    (tenOf .u64).Every Symbol.Fits ∧ minusFifteen.NumbersFit ∧
      ∃ typed, (minusFifteen.value (tenOf .u64)).outcome = .ok typed ∧
        typed.type = .primitive .u64 ∧ typed.constant = some (.int (-15)) ∧
        Primitive.u64.holdsInteger (-15) = false := by
  have hvalue : (do
      let typed ← (minusFifteen.value (tenOf .u64)).outcome
      pure (typed.type, typed.constant)).toOption =
        some (.primitive .u64, some (.int (-15))) := by decide +kernel
  obtain ⟨typed, htyped, heq⟩ := bind_eq_ok_iff.1 (eq_ok_of_toOption hvalue)
  obtain ⟨htype, hconstant⟩ := Prod.mk.inj (Except.ok.inj heq)
  exact ⟨tenOf_fits (by decide), minusFifteen_numbersFit, typed, htyped, htype, hconstant,
    by decide⟩

end Expr

/-- Wherever a run has got to, the values of all constants lie in the ranges of their types. -/
theorem Emission.constantsFit_of_run {statements : List Statement} {deny : Bool} {e : Emission}
    (h : run deny {} statements = .ok e) : e.scopes.Every Symbol.Fits :=
  constants_of_run (fun _ _ _ => Constant.fits_of_convert) h

end Sprout
