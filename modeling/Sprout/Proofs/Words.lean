import Mathlib.Data.Int.Init
import Mathlib.Tactic.MkIffOfInductiveProp
import Sprout.Proofs.Typing.Steps

namespace Sprout

namespace Primitive

variable {p : Primitive} {value : Int}

/-- Only types of whole numbers hold any. -/
theorem isInteger_of_holdsInteger (h : p.holdsInteger value = true) : p.isInteger = true := by
  cases p <;> first | rfl | cases h

/-- A type of whole numbers is not a floating one. -/
theorem isFloating_of_isInteger (h : p.isInteger = true) : p.isFloating = false := by
  cases p <;> first | rfl | cases h

end Primitive

namespace Target

/-- An integer type of the generated program, which converts both operands to a common type first.
Small types become `int`, the wider type wins, and at equal width the unsigned one. -/
structure Word where
  bits : Nat
  isSigned : Bool
deriving DecidableEq, Repr

namespace Word

/-- The type of the numbers of a Sprout type. -/
def ofPrimitive (p : Primitive) : Word :=
  ⟨p.bits, p.isSigned⟩

/-- How many values a type has. -/
def count (w : Word) : Nat :=
  Nat.pow 2 w.bits

/-- Whether a whole number is a value of a type. -/
def Holds (w : Word) (value : Int) : Prop :=
  if w.isSigned then -(w.count : Int) ≤ 2 * value ∧ 2 * value < w.count
  else 0 ≤ value ∧ value < w.count

instance (w : Word) (value : Int) : Decidable (w.Holds value) :=
  inferInstanceAs (Decidable (if w.isSigned then _ ∧ _ else _ ∧ _))

/-- The type in which a single operand is computed with: types of less than 32 bits become `int`. -/
def promote (w : Word) : Word :=
  if w.bits < 32 then ⟨32, true⟩ else w

/-- The type in which two operands are computed with, by the usual arithmetic conversions. -/
def usual (left right : Word) : Word :=
  let left := left.promote
  let right := right.promote
  if left.bits = right.bits then ⟨left.bits, left.isSigned && right.isSigned⟩
  else if left.bits < right.bits then right
  else left

/-- The value of a type that a whole number is converted to. -/
def wrap (w : Word) (value : Int) : Int :=
  if w.isSigned then value.bmod w.count else value % w.count

/-- The result of a computation in a type, by its exact result: with a sign it has to fit, and
without one it wraps around. -/
def result? (w : Word) (result : Int) : Option Int :=
  if w.isSigned then if w.Holds result then some result else none
  else some (result % w.count)

end Word

/-- The exact result of an arithmetic operator; nothing for a division by zero, and for what the
generated program has calls for. -/
def exactResult : Arithmetic → Int → Int → Option Int
  | .add, a, b => some (a + b)
  | .sub, a, b => some (a - b)
  | .mul, a, b => some (a * b)
  | .div, a, b => if b = 0 then none else some (a.tdiv b)
  | .mod, _, _ => none
  | .pow, _, _ => none

/-- Whether two whole numbers stand in the relation that a comparison asks for. -/
def relates : Comparison → Int → Int → Bool
  | .eq, a, b => a = b
  | .ne, a, b => a ≠ b
  | .lt, a, b => a < b
  | .gt, a, b => b < a
  | .le, a, b => a ≤ b
  | .ge, a, b => b ≤ a

/-- What an arithmetic operator makes of two operands in a type. -/
def Word.compute (w : Word) (op : Arithmetic) (a b : Int) : Option Int :=
  (exactResult op (w.wrap a) (w.wrap b)).bind w.result?

/-- What the generated program computes from two operands of integer types. -/
def evaluate (op : BinaryOp) (left right : Primitive) (a b : Int) : Option Constant :=
  let word := Word.usual (.ofPrimitive left) (.ofPrimitive right)
  match op with
  | .arithmetic op => (word.compute op a b).map .int
  | .comparison op => some (.bool (relates op (word.wrap a) (word.wrap b)))
  | .logical _ => none

/-- Whether it matters to an operator that a negative operand becomes larger by `count`: whether `a`
and `b` compare otherwise then, or have another quotient. -/
def ShiftMatters (count : Int) (a b : Int) : BinaryOp → Prop
  | .arithmetic .div => a < 0 ∧ b ≤ a + count
  | .comparison .eq | .comparison .ne => a < 0 ∧ b = a + count ∨ b < 0 ∧ a = b + count
  | .comparison .lt | .comparison .ge => a < 0 ∧ b ≤ a + count ∨ b < 0 ∧ a < b + count
  | .comparison .gt | .comparison .le => a < 0 ∧ b < a + count ∨ b < 0 ∧ a ≤ b + count
  | _ => False

/-- Whether the generated program computes something else than the operator does: the operands
become unsigned, and that matters to the operator. -/
def Misreads (op : BinaryOp) (left right : Primitive) (a b : Int) : Prop :=
  let word := Word.usual (.ofPrimitive left) (.ofPrimitive right)
  word.isSigned = false ∧ ShiftMatters word.count a b op

namespace Word

variable {w : Word} {op : Arithmetic} {a b value result : Int}

/-- A value of a type stays what it is. -/
theorem wrap_of_holds (h : w.Holds value) : w.wrap value = value := by
  unfold Holds at h
  unfold wrap
  split at h
  · rw [if_pos ‹_›, Int.bmod_eq_of_le (by omega) (by omega)]
  · rw [if_neg ‹_›, Int.emod_eq_of_lt h.1 h.2]

/-- A negative number becomes larger by the number of values of an unsigned type. -/
theorem wrap_of_unsigned (hsign : w.isSigned = false) (hleast : -(w.count : Int) ≤ value)
    (hgreatest : value < w.count) :
    w.wrap value = if value < 0 then value + w.count else value := by
  rw [wrap, if_neg (by simp [hsign])]
  split
  · rw [← Int.add_emod_right, Int.emod_eq_of_lt (by omega) (by omega)]
  · rw [Int.emod_eq_of_lt (by omega) hgreatest]

/-- A result that a word holds is the result. -/
theorem result_of_holds (h : w.Holds value) : w.result? value = some value := by
  by_cases hsign : w.isSigned = true
  · rw [result?, if_pos hsign, if_pos h]
  · rw [Holds, if_neg hsign] at h
    rw [result?, if_neg hsign, Int.emod_eq_of_lt h.1 h.2]

/-- Sums, differences and products can be taken modulo the number of values. -/
theorem compute_of_ne_div (hsign : w.isSigned = false) (hdiv : op ≠ .div)
    (h : exactResult op a b = some result) (hholds : w.Holds result) :
    w.compute op a b = some result := by
  have hresult := result_of_holds hholds
  rw [result?, if_neg (by simp [hsign])] at hresult
  cases op with
  | div => exact absurd rfl hdiv
  | mod | pow => cases h
  | add =>
    cases h
    simpa [compute, exactResult, wrap, result?, hsign] using hresult
  | sub =>
    cases h
    simpa [compute, exactResult, wrap, result?, hsign] using hresult
  | mul =>
    cases h
    simpa [compute, exactResult, wrap, result?, hsign, ← Int.mul_emod] using hresult

/-- A quotient is zero exactly if the divisor is larger. -/
theorem tdiv_eq_zero_iff (hb : b ≠ 0) : a.tdiv b = 0 ↔ a.natAbs < b.natAbs := by
  rw [← Int.natAbs_eq_zero, Int.natAbs_tdiv]
  exact Nat.div_eq_zero_iff.trans (or_iff_right (by omega))

/-- The operands of an unsigned computation, before they are converted: negative numbers are from
smaller types or half as large at most, and there is only one of them. -/
@[mk_iff]
structure AreUnsigned (w : Word) (a b : Int) : Prop where
  sign : w.isSigned = false
  left_least : -(w.count : Int) ≤ 2 * a
  left_lt : a < w.count
  right_least : -(w.count : Int) ≤ 2 * b
  right_lt : b < w.count
  nonneg : 0 ≤ a ∨ 0 ≤ b

namespace AreUnsigned

/-- Where one operand is unsigned, the left one is wrapped if it is negative. -/
theorem wrap_left (h : w.AreUnsigned a b) : w.wrap a = if a < 0 then a + w.count else a := by
  have := h.left_least
  have := h.left_lt
  exact wrap_of_unsigned h.sign (by omega) h.left_lt

/-- Where one operand is unsigned, the right one is wrapped if it is negative. -/
theorem wrap_right (h : w.AreUnsigned a b) : w.wrap b = if b < 0 then b + w.count else b := by
  have := h.right_least
  have := h.right_lt
  exact wrap_of_unsigned h.sign (by omega) h.right_lt

/-- Where one operand is unsigned, the quotient is that of the wrapped operands. -/
theorem compute_div_eq (h : w.AreUnsigned a b) (hb : b ≠ 0) :
    w.compute .div a b = some ((w.wrap a).tdiv (w.wrap b)) := by
  have hnonneg : 0 ≤ w.wrap a ∧ w.wrap a < w.count ∧ 0 ≤ w.wrap b ∧ w.wrap b ≠ 0 := by
    rw [h.wrap_left, h.wrap_right]
    obtain ⟨-, hleast, hlt, hleast', hlt', -⟩ := h
    refine ⟨?_, ?_, ?_, ?_⟩ <;> split <;> omega
  obtain ⟨hleft, hlt, hright, hne⟩ := hnonneg
  have hquotient := Int.tdiv_le_self (w.wrap b) hleft
  have hholds : w.Holds ((w.wrap a).tdiv (w.wrap b)) := by
    rw [Holds, if_neg (by simp [h.sign])]
    exact ⟨Int.tdiv_nonneg hleft hright, by omega⟩
  rw [compute, exactResult, if_neg hne]
  exact result_of_holds hholds

/-- A quotient that fits is computed unless a negative dividend becomes as large as the divisor. With
a negative operand the quotient is zero, and a divisor that becomes larger does not change that. -/
theorem compute_div_iff (h : w.AreUnsigned a b) (hb : b ≠ 0) (hholds : w.Holds (a.tdiv b)) :
    w.compute .div a b = some (a.tdiv b) ↔ ¬(a < 0 ∧ b ≤ a + w.count) := by
  rw [h.compute_div_eq hb, Option.some_inj, h.wrap_left, h.wrap_right]
  rw [Holds, if_neg (by simp [h.sign])] at hholds
  have hzero := tdiv_eq_zero_iff (a := a) hb
  obtain ⟨-, hleast, hlt, hleast', hlt', hnonneg⟩ := h
  rcases Int.lt_or_le a 0 with ha | ha
  · have hquotient : a.tdiv b = 0 := by
      have hopposite := Int.tdiv_nonneg (a := -a) (b := b) (by omega) (by omega)
      rw [Int.neg_tdiv] at hopposite
      omega
    rw [if_pos ha, if_neg (by omega), hquotient, tdiv_eq_zero_iff hb]
    omega
  · rw [if_neg (by omega)]
    rcases Int.lt_or_le b 0 with hnegative | hpositive
    · have hquotient : a.tdiv b = 0 := by
        have hopposite := Int.tdiv_nonpos_of_nonneg_of_nonpos ha (by omega : b ≤ 0)
        omega
      have hlarger : a < b + w.count := by
        have hsmall := hzero.1 hquotient
        omega
      rw [if_pos hnegative, hquotient, Int.tdiv_eq_zero_of_lt ha hlarger]
      simp [Int.not_lt.2 ha]
    · rw [if_neg (by omega)]
      simp [Int.not_lt.2 ha]

/-- A comparison has its result unless a negative operand becomes so large that it changes. -/
theorem relates_iff (h : w.AreUnsigned a b) (op : Comparison) :
    relates op (w.wrap a) (w.wrap b) = relates op a b ↔
      ¬ShiftMatters w.count a b (.comparison op) := by
  rw [h.wrap_left, h.wrap_right]
  obtain ⟨-, hleast, hlt, hleast', hlt', hnonneg⟩ := h
  cases op <;>
    simp only [relates, ShiftMatters, decide_eq_decide] <;> split <;> split <;> omega

end AreUnsigned

section Primitives

variable {p q common : Primitive}

/-- Only four types are computed with. -/
theorem promote_ofPrimitive (p : Primitive) :
    (ofPrimitive p).promote = ⟨32, true⟩ ∨ (ofPrimitive p).promote = ⟨32, false⟩ ∨
      (ofPrimitive p).promote = ⟨64, true⟩ ∨ (ofPrimitive p).promote = ⟨64, false⟩ := by
  cases p <;> decide

/-- What a type holds fits the word it is computed in. -/
theorem holds_promote (h : p.holdsInteger value = true) :
    (ofPrimitive p).promote.Holds value := by
  cases p with
  | f32 | f64 | bool | char | str | void => cases h
  | _ =>
    simp [Primitive.holdsInteger, Primitive.integerRange, Primitive.isInteger, Primitive.isSigned,
      Primitive.bits] at h
    simp [ofPrimitive, promote, Holds, count, Primitive.isSigned, Primitive.bits]
    omega

/-- Operands are values of the type they are converted to, or they are converted to an unsigned
type. -/
theorem usual_cases (ha : p.holdsInteger a = true) (hb : q.holdsInteger b = true) :
    let word := usual (ofPrimitive p) (ofPrimitive q)
    word.isSigned = true ∧ word.Holds a ∧ word.Holds b ∨ word.AreUnsigned a b := by
  have hleft := holds_promote ha
  have hright := holds_promote hb
  dsimp only [usual]
  rcases promote_ofPrimitive p with hp | hp | hp | hp <;>
    rcases promote_ofPrimitive q with hq | hq | hq | hq <;>
    rw [hp] at hleft ⊢ <;> rw [hq] at hright ⊢ <;>
    simp [areUnsigned_iff, Holds, count] at hleft hright ⊢ <;> omega

/-- The type of the result of an operator on whole numbers is an integer type and, up to promotion,
the one in which the generated program computes. -/
theorem usual_of_common (hp : p.isInteger = true) (hq : q.isInteger = true)
    (h : Primitive.common p q = some common) :
    common.isInteger = true ∧
      usual (ofPrimitive p) (ofPrimitive q) = (ofPrimitive common).promote := by
  cases p with
  | f32 | f64 | bool | char | str | void => cases hp
  | _ =>
    cases q with
    | f32 | f64 | bool | char | str | void => cases hq
    | _ =>
      cases h
      exact ⟨rfl, rfl⟩

end Primitives

end Word

section Folding

variable {p q common : Primitive} {a b result : Int}

/-- An exact result that fits the common type is computed, unless the operands are misread. -/
theorem evaluate_arithmetic_iff {op : Arithmetic} (ha : p.holdsInteger a = true)
    (hb : q.holdsInteger b = true) (hcommon : Primitive.common p q = some common)
    (hexact : exactResult op a b = some result) (hholds : common.holdsInteger result = true) :
    evaluate (.arithmetic op) p q a b = some (.int result) ↔
      ¬Misreads (.arithmetic op) p q a b := by
  have hresult := Word.holds_promote hholds
  rw [← (Word.usual_of_common (Primitive.isInteger_of_holdsInteger ha)
    (Primitive.isInteger_of_holdsInteger hb) hcommon).2] at hresult
  have hoperands := Word.usual_cases ha hb
  simp only [evaluate, Misreads, Option.map_eq_some_iff, Constant.int.injEq, exists_eq_right]
  generalize Word.usual (.ofPrimitive p) (.ofPrimitive q) = word at hresult hoperands ⊢
  rcases hoperands with ⟨hsign, hleft, hright⟩ | hunsigned
  · have hcompute : word.compute op a b = some result := by
      rw [Word.compute, Word.wrap_of_holds hleft, Word.wrap_of_holds hright, hexact]
      exact Word.result_of_holds hresult
    simp [hcompute, hsign]
  · by_cases hdiv : op = .div
    · subst hdiv
      obtain ⟨hne, heq⟩ := Option.ite_none_left_eq_some.1 hexact
      cases heq
      simpa [ShiftMatters, hunsigned.sign] using hunsigned.compute_div_iff hne hresult
    · have hshift : ¬ShiftMatters word.count a b (.arithmetic op) := by
        cases op <;> first | exact absurd rfl hdiv | exact id
      simp [Word.compute_of_ne_div hunsigned.sign hdiv hexact hresult, hshift]

/-- A comparison of whole numbers is computed, unless the operands are misread. -/
theorem evaluate_comparison_iff (op : Comparison) (ha : p.holdsInteger a = true)
    (hb : q.holdsInteger b = true) :
    evaluate (.comparison op) p q a b = some (.bool (relates op a b)) ↔
      ¬Misreads (.comparison op) p q a b := by
  have hoperands := Word.usual_cases ha hb
  simp only [evaluate, Misreads, Option.some_inj, Constant.bool.injEq]
  generalize Word.usual (.ofPrimitive p) (.ofPrimitive q) = word at hoperands ⊢
  rcases hoperands with ⟨hsign, hleft, hright⟩ | hunsigned
  · simp [Word.wrap_of_holds hleft, Word.wrap_of_holds hright, hsign]
  · simpa [hunsigned.sign] using hunsigned.relates_iff op

end Folding

end Target

namespace Constant

variable {a b result : Int}

/-- A folded result is the exact one. -/
theorem exactResult_of_foldInt {op : Arithmetic} (hmod : op ≠ .mod) (hpow : op ≠ .pow)
    (h : foldInt op a b = some result) : Target.exactResult op a b = some result := by
  have hfit : ∀ value, fit value = some result → value = result := by
    intro value hvalue
    unfold fit at hvalue
    split at hvalue
    · exact Option.some.inj hvalue
    · cases hvalue
  cases op with
  | mod => exact absurd rfl hmod
  | pow => exact absurd rfl hpow
  | add | sub | mul => exact congrArg some (hfit _ h)
  | div =>
    obtain ⟨hne, hquotient⟩ := Option.ite_none_left_eq_some.1 h
    rw [Target.exactResult, if_neg hne, hfit _ hquotient]

/-- A comparison of two numbers says what the relation says. -/
theorem holds_compare (op : Comparison) (a b : Int) :
    op.holds (compare a b) = Target.relates op a b := by
  rcases Int.lt_trichotomy a b with h | h | h
  · rw [Int.compare_eq_lt.2 h]
    cases op <;>
      first | exact (decide_eq_true (by omega)).symm | exact (decide_eq_false (by omega)).symm
  · rw [Int.compare_eq_eq.2 h]
    cases op <;>
      first | exact (decide_eq_true (by omega)).symm | exact (decide_eq_false (by omega)).symm
  · rw [Int.compare_eq_gt.2 h]
    cases op <;>
      first | exact (decide_eq_true (by omega)).symm | exact (decide_eq_false (by omega)).symm

/-- A known whole number stays known in a type of whole numbers only if that holds it. -/
theorem convert_int {p : Primitive} {c : Constant} (hp : p.isInteger = true)
    (h : (int result).convert (.primitive p) = some c) :
    p.holdsInteger result = true ∧ c = .int result := by
  cases p with
  | f32 | f64 | bool | char | str | void => cases hp
  | _ =>
    obtain ⟨hholds, heq⟩ := Option.ite_none_right_eq_some.1 h
    exact ⟨hholds, (Option.some.inj heq).symm⟩

end Constant

namespace Expr

variable {scopes : Scopes} {op : BinaryOp} {left right : Expr} {position : Position}
  {first second typed : Typed} {p q : Primitive} {a b : Int} {c : Constant}

/-- The known result of an operator on two whole numbers is the one that the generated program
computes, unless a negative operand becomes large in an unsigned type and that matters to the
operator. -/
theorem evaluate_iff_of_value
    (hmod : op ≠ .arithmetic .mod) (hpow : op ≠ .arithmetic .pow)
    (h : ((binary op left right position).value scopes).outcome = .ok typed)
    (hc : typed.constant = some c)
    (hleft : (left.value scopes).outcome = .ok first) (hfirst : first.type = .primitive p)
    (hfirstKnown : first.constant = some (.int a)) (ha : p.holdsInteger a = true)
    (hright : (right.value scopes).outcome = .ok second) (hsecond : second.type = .primitive q)
    (hsecondKnown : second.constant = some (.int b)) (hb : q.holdsInteger b = true) :
    Target.evaluate op p q a b = some c ↔ ¬Target.Misreads op p q a b := by
  simp only [value, Checked.outcome_bind_eq_ok_iff] at h
  obtain ⟨_, hleft', _, hright', happly⟩ := h
  obtain rfl := Except.ok.inj (hleft.symm.trans hleft')
  obtain rfl := Except.ok.inj (hright.symm.trans hright')
  obtain ⟨type, htype, rfl⟩ := Typed.eq_of_applyBinary happly
  rw [hfirst, hsecond] at htype
  simp only [hfirstKnown, hsecondKnown] at hc
  obtain ⟨folded, hfolded, hconverted⟩ := Option.bind_eq_some_iff.1 hc
  have hp := Primitive.isInteger_of_holdsInteger ha
  have hq := Primitive.isInteger_of_holdsInteger hb
  cases op with
  | logical => cases hfolded
  | comparison op =>
    cases hfolded
    obtain ⟨-, hbool⟩ := Option.ite_none_right_eq_some.1 htype
    cases hbool
    cases hconverted
    rw [Constant.holds_compare]
    exact Target.evaluate_comparison_iff op ha hb
  | arithmetic op =>
    obtain ⟨result, hexact, rfl⟩ := Option.map_eq_some_iff.1 hfolded
    have hstr : p ≠ .str := by
      rintro rfl
      cases hp
    rw [Typed.resultType, if_neg (by simp [hstr])] at htype
    obtain ⟨common, hcommon, rfl⟩ := Option.map_eq_some_iff.1 htype
    -- Both sides compute in the common type: the folded value fits it, and the program wraps to it.
    rw [if_neg (by simpa using hpow)] at hconverted
    obtain ⟨hholds, rfl⟩ :=
      Constant.convert_int (Target.Word.usual_of_common hp hq hcommon).1 hconverted
    exact Target.evaluate_arithmetic_iff ha hb hcommon
      (Constant.exactResult_of_foldInt (by simpa using hmod) (by simpa using hpow) hexact) hholds

/-- The expression `-1`. -/
private def minusOne : Expr :=
  .unary .minus (.number (.integer .i32 1) ⟨1, 2⟩) ⟨1, 1⟩

/-- The expression `u32(5)`. -/
private def unsignedFive : Expr :=
  .convert .u32 [] [.number (.integer .i32 5) ⟨1, 10⟩] ⟨1, 6⟩

/-- The two with an operator between them. -/
private def minusOneWith (op : BinaryOp) : Expr :=
  .binary op minusOne unsignedFive ⟨1, 4⟩

/-- What is seen of the value of an expression is so of its typed form. -/
private theorem exists_of_value {e : Expr} {type : Ty} {constant : Constant}
    (h : ((e.value {}).outcome.toOption.map fun typed => (typed.type, typed.constant)) =
      some (type, some constant)) :
    ∃ typed, (e.value {}).outcome = .ok typed ∧ typed.type = type ∧
      typed.constant = some constant := by
  obtain ⟨typed, htyped, heq⟩ := Option.map_eq_some_iff.1 h
  obtain ⟨htype, hconstant⟩ := Prod.mk.inj heq
  exact ⟨typed, eq_ok_of_toOption htyped, htype, hconstant⟩

/-- The left operand is a known whole number of a signed type. -/
private theorem minusOne_value : ∃ typed, (minusOne.value {}).outcome = .ok typed ∧
    typed.type = .primitive .i32 ∧ typed.constant = some (.int (-1)) :=
  exists_of_value (by decide +kernel)

/-- The right operand is a known whole number of an unsigned type. -/
private theorem unsignedFive_value : ∃ typed, (unsignedFive.value {}).outcome = .ok typed ∧
    typed.type = .primitive .u32 ∧ typed.constant = some (.int 5) :=
  exists_of_value (by decide +kernel)

/-- The sum `-1 + u32(5)` is four in the generated program too, although the first operand becomes
large. -/
theorem minusOne_add_evaluate :
    ∃ typed, ((minusOneWith (.arithmetic .add)).value {}).outcome = .ok typed ∧
      typed.type = .primitive .u32 ∧ typed.constant = some (.int 4) ∧
      (Target.evaluate (.arithmetic .add) .i32 .u32 (-1) 5 = some (.int 4) ↔
        ¬Target.Misreads (.arithmetic .add) .i32 .u32 (-1) 5) := by
  obtain ⟨first, hfirst, hfirstType, hfirstKnown⟩ := minusOne_value
  obtain ⟨second, hsecond, hsecondType, hsecondKnown⟩ := unsignedFive_value
  have hsum : ∃ typed, ((minusOneWith (.arithmetic .add)).value {}).outcome = .ok typed ∧
      typed.type = .primitive .u32 ∧ typed.constant = some (.int 4) :=
    exists_of_value (by decide +kernel)
  obtain ⟨typed, htyped, htype, hconstant⟩ := hsum
  exact ⟨typed, htyped, htype, hconstant,
    evaluate_iff_of_value (by decide) (by decide) htyped hconstant hfirst hfirstType hfirstKnown
      (by decide) hsecond hsecondType hsecondKnown (by decide)⟩

/-- The comparison `-1 < u32(5)` is known to be true, and false in the generated program. -/
theorem minusOne_lt_misread :
    (∃ first, (minusOne.value {}).outcome = .ok first ∧ first.type = .primitive .i32 ∧
      first.constant = some (.int (-1))) ∧ Primitive.i32.holdsInteger (-1) = true ∧
    (∃ second, (unsignedFive.value {}).outcome = .ok second ∧ second.type = .primitive .u32 ∧
      second.constant = some (.int 5)) ∧ Primitive.u32.holdsInteger 5 = true ∧
    (∃ typed, ((minusOneWith (.comparison .lt)).value {}).outcome = .ok typed ∧
      typed.type = .bool ∧ typed.constant = some (.bool true)) ∧
    Target.evaluate (.comparison .lt) .i32 .u32 (-1) 5 = some (.bool false) :=
  ⟨minusOne_value, by decide, unsignedFive_value, by decide, exists_of_value (by decide +kernel),
    by decide⟩

end Expr

end Sprout
