import Sprout.Proofs.Ranges
import Sprout.Proofs.Words

namespace Sprout

namespace Primitive

/-- How many binary digits the significand of a floating type has. -/
def precision : Primitive → Nat
  | .f32 => Floating.Format.single.precision
  | .f64 => Floating.Format.double.precision
  | _ => 0

/-- Whether a whole number is a value of a numeric type: it lies in the range of an integer type, or
is a multiple of a power of two with a factor that fits the significand of a floating type. -/
def Represents (p : Primitive) (value : Int) : Prop :=
  if p.isFloating then
    ∃ (factor : Int) (exponent : Nat), value = factor * Int.pow 2 exponent ∧
      factor.natAbs < Nat.pow 2 p.precision
  else p.holdsInteger value = true

variable {t p : Primitive} {value : Int}

/-- A small number is its own factor. -/
theorem represents_of_natAbs_lt (ht : t.isFloating = true)
    (h : value.natAbs < Nat.pow 2 t.precision) : t.Represents value := by
  rw [Represents, if_pos ht]
  exact ⟨value, 0, (Int.mul_one value).symm, h⟩

/-- An odd number is its own factor, so that it needs all its digits. -/
theorem not_represents_of_odd (ht : t.isFloating = true) (hodd : value % 2 = 1)
    (h : Nat.pow 2 t.precision ≤ value.natAbs) : ¬t.Represents value := by
  rw [Represents, if_pos ht]
  rintro ⟨factor, exponent, rfl, hfactor⟩
  cases exponent with
  | zero =>
    have hone : factor * Int.pow 2 0 = factor := Int.mul_one factor
    rw [hone] at h
    omega
  | succ exponent =>
    have htwo : factor * Int.pow 2 (exponent + 1) = factor * Int.pow 2 exponent * 2 :=
      (Int.mul_assoc factor (Int.pow 2 exponent) 2).symm
    omega

/-- A type that holds all values of another represents them: for two integer types by their ranges,
and for a floating type because its significand has all the bits that are needed. -/
theorem represents_of_widens (ht : t.isNumeric = true) (hwidens : t.widens p = true)
    (h : p.holdsInteger value = true) : t.Represents value := by
  cases t with
  | bool | char | str | void => cases ht
  | f32 =>
    apply represents_of_natAbs_lt rfl
    cases p with
    | f32 | f64 | bool | char | str | void => cases h
    | i32 | i64 | u32 | u64 | usize => cases hwidens
    | i8 | i16 | u8 | u16 =>
      simp [holdsInteger, integerRange, isInteger, isSigned, bits] at h
      simp [precision, Floating.Format.single]
      omega
  | f64 =>
    apply represents_of_natAbs_lt rfl
    cases p with
    | f32 | f64 | bool | char | str | void => cases h
    | i64 | u64 | usize => cases hwidens
    | i8 | i16 | i32 | u8 | u16 | u32 =>
      simp [holdsInteger, integerRange, isInteger, isSigned, bits] at h
      simp [precision, Floating.Format.double]
      omega
  | _ =>
    rw [Represents, if_neg (by simp [isFloating])]
    cases p with
    | f32 | f64 | bool | char | str | void => cases h
    | _ =>
      first
      | exact absurd hwidens (by decide)
      | simp [holdsInteger, integerRange, isInteger, isSigned, bits] at h ⊢
        omega

end Primitive

/-- What may be stored in a place of a primitive type is of a primitive type too. -/
theorem Ty.exists_of_assign {t : Primitive} {source : Ty}
    (h : assign (.primitive t) source ≠ .incompatible) :
    ∃ p, source = .primitive p ∧ assign (.primitive t) source =
      if t = p then .exact else if t.widens p then .widening else .narrowing := by
  unfold assign at h ⊢
  split at h
  · rename_i heq
    exact ⟨t, heq.symm, by simp [heq]⟩
  · rename_i hne
    split at h
    · rename_i p heq
      cases heq
      split at h
      · rename_i hnumeric
        have hdiffers : t ≠ p := fun heq => hne (congrArg Ty.primitive heq)
        exact ⟨p, rfl, by rw [if_neg hne, if_pos hnumeric, if_neg hdiffers]⟩
      · exact absurd rfl h
    · rename_i heq
      cases heq
    · exact absurd rfl h

namespace Typed

variable {typed : Typed} {t p : Primitive} {v : Int} {position : Position}
  {assignability : Assignability}

/-- A value that goes to a place of a primitive type without a warning is null, or it is of that
type, of one whose values the place holds, or known to fit. -/
theorem silent_cases (h : (typed.checkAssign (.primitive t) position).outcome = .ok assignability)
    (hsilent : (typed.checkAssign (.primitive t) position).warnings = []) :
    typed.type = .null ∨ ∃ p, typed.type = .primitive p ∧
      (t = p ∨ t.widens p = true ∨
        t.widens p = false ∧ typed.constantFits (.primitive t) = true) := by
  unfold checkAssign at h hsilent
  split at h
  · rename_i hnull
    exact .inl (of_decide_eq_true hnull)
  · rename_i hnull
    rw [if_neg hnull] at hsilent
    have hallowed : Ty.assign (.primitive t) typed.type ≠ .incompatible := by
      intro hincompatible
      simp [hincompatible] at h
    obtain ⟨p, htype, hassign⟩ := Ty.exists_of_assign hallowed
    refine .inr ⟨p, htype, ?_⟩
    rw [hassign] at hsilent
    by_cases hsame : t = p
    · exact .inl hsame
    · rw [if_neg hsame] at hsilent
      cases hwidens : t.widens p with
      | true => exact .inr (.inl rfl)
      | false =>
        refine .inr (.inr ⟨rfl, ?_⟩)
        cases hfits : typed.constantFits (.primitive t) with
        | true => rfl
        | false =>
          rw [hwidens, hfits] at hsilent
          cases hsilent

/-- A value that fits a numeric type is represented by it, unless the type is floating. -/
theorem represents_of_constantFits (hconstant : typed.constant = some (.int v))
    (h : typed.constantFits (.primitive t) = true) : t.Represents v ∨ t.isFloating = true := by
  simp only [constantFits, hconstant] at h
  cases hfloating : t.isFloating with
  | true => exact .inr rfl
  | false =>
    split at h
    · exact .inl (by rw [Primitive.Represents, if_neg (by simp [hfloating]), h])
    · rw [hfloating] at h
      cases h

/-- A known whole number goes to a floating type without a warning, whatever its value is. -/
theorem silent_of_isFloating (hconstant : typed.constant = some (.int v))
    (ht : t.isFloating = true) : (typed.checkAssign (.primitive t) position).warnings = [] := by
  have hinteger : t.isInteger = false := by
    cases t <;> cases ht <;> rfl
  have hfits : typed.constantFits (.primitive t) = true := by
    simp [constantFits, hconstant, hinteger, ht]
  unfold checkAssign
  split
  · rfl
  · split
    · rfl
    · rw [hfits]
      rfl
    · rfl

end Typed

/-- Whether a constant, if it is a whole number, is of an integer type that holds it. -/
def Constant.IsOf (c : Constant) (type : Ty) : Prop :=
  ∀ v, c = .int v → ∃ p, type = .primitive p ∧ p.holdsInteger v = true

/-- A known value that is one of a type fits that type. -/
theorem Constant.IsOf.fits {c : Constant} {type : Ty} (h : c.IsOf type) : c.Fits type := by
  rintro p v rfl - rfl
  obtain ⟨q, hq, hholds⟩ := h v rfl
  cases hq
  exact hholds

/-- What a place holds is of its type. -/
theorem Constant.isOf_of_convert {c converted : Constant} {type : Ty}
    (h : c.convert type = some converted) : converted.IsOf type := by
  rintro v rfl
  exact exists_of_convert h

/-- Whether the value of a symbol, if it is a known whole number, is of its declared type. -/
def Symbol.HoldsOwn (symbol : Symbol) : Prop :=
  ∀ c, symbol.constant = some c → c.IsOf symbol.type

/-- Wherever a run has got to, the values of all constants are of their types. -/
theorem Emission.holdOwn_of_run {statements : List Statement} {deny : Bool} {e : Emission}
    (h : run deny {} statements = .ok e) : e.scopes.Every Symbol.HoldsOwn :=
  constants_of_run (fun _ _ _ => Constant.isOf_of_convert) h

namespace Expr

variable {scopes : Scopes} {e : Expr} {typed : Typed} {t p : Primitive} {v : Int}
  {position : Position} {assignability : Assignability}

/-- An expression whose value is a known whole number is of an integer type. Signs in front keep the
type and are stripped first; whatever is under them was converted to its type. -/
theorem exists_isInteger_of_value (hscopes : scopes.Every Symbol.HoldsOwn) (hnumbers : e.NumbersFit)
    (h : (e.value scopes).outcome = .ok typed) (hconstant : typed.constant = some (.int v)) :
    ∃ p, typed.type = .primitive p ∧ p.isInteger = true := by
  induction e using unsigned.induct generalizing typed v with
  | case1 inner position ih =>
    obtain ⟨operand, hoperand, hsame, hknown⟩ := exists_of_value_plus h
    rw [hsame]
    exact ih (hnumbers.child (by simp [children])) hoperand (hknown ▸ hconstant)
  | case2 inner position ih =>
    obtain ⟨operand, w, hoperand, hsame, hknown, -⟩ := exists_of_value_minus h hconstant
    rw [hsame]
    exact ih (hnumbers.child (by simp [children])) hoperand hknown
  | case3 e hplus hminus =>
    have hnumber : ∀ type w position, e = .number (.integer type w) position →
        Constant.IsOf (.int w) (.primitive type) := by
      rintro type w position rfl v hv
      cases hv
      exact ⟨type, rfl, hnumbers _ position .self⟩
    have hown := known_of_value (P := Constant.IsOf) (fun c _ hother v hv => absurd hv (hother v))
      (fun _ _ _ => Constant.isOf_of_convert) hnumber hscopes hplus hminus h
    obtain ⟨p, hp, hholds⟩ := hown _ hconstant v rfl
    exact ⟨p, hp, Primitive.isInteger_of_holdsInteger hholds⟩

/-- A known whole number that goes to a numeric type without a warning is represented by it, except
in two cases. It goes to a floating type that does not hold all values of its own type: then there is
never a warning. Or it is not a value of its own type: that is so only if an odd number of minus signs
stands in front, where the constants in scope and the numbers are values of their types. -/
theorem represents_of_checkAssign (ht : t.isNumeric = true)
    (h : (e.value scopes).outcome = .ok typed) (hconstant : typed.constant = some (.int v))
    (hassign : (typed.checkAssign (.primitive t) position).outcome = .ok assignability)
    (hsilent : (typed.checkAssign (.primitive t) position).warnings = []) :
    t.Represents v ∨
      (∃ p, typed.type = .primitive p ∧ p.holdsInteger v = true ∧ t.isFloating = true ∧
        t.bits < 2 * p.bits) ∨
      (∀ p, typed.type = .primitive p → p.holdsInteger v = false) ∧
        (scopes.Every Symbol.HoldsOwn → e.NumbersFit → e.isOpposite = true) := by
  -- If the value is one of its own type, the check is silent for the type or for the value; if not,
  -- an odd number of signs made it.
  by_cases hown : ∃ p, typed.type = .primitive p ∧ p.holdsInteger v = true
  · obtain ⟨p, htype, hholds⟩ := hown
    have hinteger := Primitive.isInteger_of_holdsInteger hholds
    rcases Typed.silent_cases hassign hsilent with hnull | ⟨q, hq, hcases⟩
    · rw [htype] at hnull
      cases hnull
    · rw [htype] at hq
      cases hq
      rcases hcases with rfl | hwidens | ⟨hnarrows, hfits⟩
      · refine .inl ?_
        rw [Primitive.Represents, Primitive.isFloating_of_isInteger hinteger, if_neg (by simp),
          hholds]
      · exact .inl (Primitive.represents_of_widens ht hwidens hholds)
      · rcases Typed.represents_of_constantFits hconstant hfits with hrepresents | hfloating
        · exact .inl hrepresents
        · refine .inr (.inl ⟨p, htype, hholds, hfloating, ?_⟩)
          simp only [Primitive.widens, hfloating, Primitive.isFloating_of_isInteger hinteger,
            decide_eq_false_iff_not] at hnarrows
          omega
  · refine .inr (.inr ⟨fun p htype => ?_, fun hscopes hnumbers => ?_⟩)
    · cases hholds : p.holdsInteger v with
      | false => rfl
      | true => exact absurd ⟨p, htype, hholds⟩ hown
    · obtain ⟨p, htype, hinteger⟩ := exists_isInteger_of_value hscopes hnumbers h hconstant
      have hfits : scopes.Every Symbol.Fits := fun scope hscope entry hentry c hc =>
        (hscopes scope hscope entry hentry c hc).fits
      obtain ⟨inner, w, -, -, -, hholds, hv⟩ :=
        exists_of_value_unsigned hfits hnumbers h htype hinteger hconstant
      cases hopposite : e.isOpposite with
      | true => rfl
      | false =>
        rw [hopposite, if_neg (by simp)] at hv
        exact absurd ⟨p, htype, hv ▸ hholds⟩ hown

/-- The literal of a number of 32 bits. -/
private def numberOf (n : Int) : Expr :=
  .number (.integer .i32 n) ⟨1, 9⟩

/-- The number fits the narrower type exactly, so the place takes it without a warning. -/
theorem numberOf_represents :
    ∃ typed, ((numberOf 300).value {}).outcome = .ok typed ∧ typed.constant = some (.int 300) ∧
      (typed.checkAssign (.primitive .u16) ⟨1, 9⟩).outcome = .ok .narrowing ∧
      (typed.checkAssign (.primitive .u16) ⟨1, 9⟩).warnings = [] ∧
      Primitive.u16.Represents 300 := by
  obtain ⟨typed, htyped, htype, hconstant, hassign, hsilent⟩ :
      ∃ typed, ((numberOf 300).value {}).outcome = .ok typed ∧ typed.type = .primitive .i32 ∧
        typed.constant = some (.int 300) ∧
        (typed.checkAssign (.primitive .u16) ⟨1, 9⟩).outcome = .ok .narrowing ∧
        (typed.checkAssign (.primitive .u16) ⟨1, 9⟩).warnings = [] := ⟨_, rfl, rfl, rfl, rfl, rfl⟩
  refine ⟨typed, htyped, hconstant, hassign, hsilent, ?_⟩
  rcases represents_of_checkAssign (by decide) htyped hconstant hassign hsilent with
    h | ⟨p, -, -, hfloating, -⟩ | ⟨houtside, -⟩
  · exact h
  · cases hfloating
  · cases houtside .i32 htype

/-- A number with one digit more than the significand of `f32` has goes there without a warning. -/
theorem numberOf_not_represents :
    ∃ typed, ((numberOf 16777217).value {}).outcome = .ok typed ∧
      typed.constant = some (.int 16777217) ∧
      (typed.checkAssign (.primitive .f32) ⟨1, 9⟩).outcome = .ok .narrowing ∧
      (typed.checkAssign (.primitive .f32) ⟨1, 9⟩).warnings = [] ∧
      ¬Primitive.f32.Represents 16777217 :=
  ⟨_, rfl, rfl, rfl, rfl, Primitive.not_represents_of_odd rfl (by decide) (by decide)⟩

end Expr

end Sprout
