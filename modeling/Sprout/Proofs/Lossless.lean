import Mathlib.Algebra.Order.Field.Power
import Mathlib.Algebra.Order.Field.Rat
import Mathlib.Algebra.Order.Ring.Int
import Mathlib.Algebra.Ring.Int.Parity
import Mathlib.Data.Set.Basic
import Mathlib.Tactic.NormNum
import Mathlib.Tactic.Positivity
import Sprout.Floating
import Sprout.Ty

namespace Sprout

namespace Floating.Format

variable {f g : Format}

/-- The finite numbers of a format: a factor of limited size times a power of two. The widths and
signs that `Primitive.widens` compares say just when one set of numbers lies within another. -/
def numbers (f : Format) : Set ℚ :=
  {x : ℚ | ∃ m k : ℤ, |m| < 2 ^ f.precision ∧ f.minExponent ≤ k ∧ k ≤ f.maxExponent ∧ x = m * 2 ^ k}

/-- A format that allows more factors and exponents has all numbers of the other. -/
theorem numbers_mono (hprecision : f.precision ≤ g.precision)
    (hmin : g.minExponent ≤ f.minExponent) (hmax : f.maxExponent ≤ g.maxExponent) :
    f.numbers ⊆ g.numbers := by
  rintro x ⟨m, k, hm, hlow, hhigh, rfl⟩
  have hwider : (2 : ℤ) ^ f.precision ≤ 2 ^ g.precision := pow_le_pow_right₀ (by decide) hprecision
  exact ⟨m, k, hm.trans_le hwider, hmin.trans hlow, hhigh.trans hmax, rfl⟩

/-- A small whole number is its own factor. -/
theorem intCast_mem_numbers {n : ℤ} (hmin : f.minExponent ≤ 0) (hmax : 0 ≤ f.maxExponent)
    (h : |n| < 2 ^ f.precision) : (n : ℚ) ∈ f.numbers :=
  ⟨n, 0, h, hmin, hmax, by rw [zpow_zero, mul_one]⟩

/-- The number after `2 ^ precision` is odd, so that all its digits would have to be in the factor. -/
theorem succ_not_mem_numbers (hprecision : f.precision ≠ 0) :
    ((2 ^ f.precision + 1 : ℤ) : ℚ) ∉ f.numbers := by
  rintro ⟨m, k, hm, -, -, heq⟩
  have hle := le_abs_self m
  obtain ⟨n, rfl | rfl⟩ := k.eq_nat_or_neg
  · rw [zpow_natCast] at heq
    have hwhole : 2 ^ f.precision + 1 = m * 2 ^ n := by exact_mod_cast heq
    cases n with
    | zero => omega
    | succ n =>
      have heven : Even (2 ^ f.precision : ℤ) := even_two.pow_of_ne_zero hprecision
      have hodd : Odd (m * 2 ^ (n + 1)) := hwhole ▸ heven.add_one
      exact absurd hodd (Int.not_odd_iff_even.2 ((even_two.pow_of_ne_zero n.succ_ne_zero).mul_left m))
  · -- A factor in front of a smaller power would be larger still.
    have hwhole : (2 ^ f.precision + 1) * 2 ^ n = m := by
      rw [zpow_neg, zpow_natCast, eq_mul_inv_iff_mul_eq₀ (by positivity)] at heq
      exact_mod_cast heq
    have hone : (1 : ℤ) ≤ 2 ^ n := one_le_pow₀ (by decide)
    have hgrows : (2 ^ f.precision + 1 : ℤ) ≤ m :=
      hwhole ▸ le_mul_of_one_le_right (by positivity) hone
    omega

/-- One half is no whole number. -/
theorem half_mem_numbers (hprecision : f.precision ≠ 0) (hmin : f.minExponent < 0)
    (hmax : 0 ≤ f.maxExponent) : ((1 : ℤ) * 2 ^ (-1 : ℤ) : ℚ) ∈ f.numbers := by
  refine ⟨1, -1, ?_, by omega, by omega, rfl⟩
  rw [abs_one]
  exact one_lt_pow₀ (by decide) hprecision

end Floating.Format

namespace Primitive

open Floating

variable {t s : Primitive} {f g : Format} {n : ℤ}

/-- The format of a floating-point type. -/
def format? : Primitive → Option Format
  | .f32 => some .single
  | .f64 => some .double
  | _ => none

/-- The numbers of a numeric type: those of its format, or those in its range. -/
def numbers (p : Primitive) : Set ℚ :=
  match p.format? with
  | some f => f.numbers
  | none => {x : ℚ | ∃ n : ℤ, p.holdsInteger n = true ∧ x = n}

/-- How many binary digits the whole numbers of an integer type have, its sign apart. -/
def digits (p : Primitive) : Nat :=
  if p.isSigned then p.bits - 1 else p.bits

/-- A floating type has the numbers of its format. -/
theorem numbers_of_format? (h : s.format? = some f) : s.numbers = f.numbers := by
  rw [numbers, h]

/-- A type of whole numbers has the whole numbers that it holds. -/
theorem numbers_of_isInteger (h : s.isInteger = true) :
    s.numbers = {x : ℚ | ∃ n : ℤ, s.holdsInteger n = true ∧ x = n} := by
  have hformat : s.format? = none := by cases s <;> first | rfl | cases h
  rw [numbers, hformat]

/-- A numeric type is an integer type or has a format. -/
theorem isInteger_or_format? (h : s.isNumeric = true) :
    s.isInteger = true ∨ ∃ f, s.format? = some f := by
  cases s <;> first | exact .inl rfl | exact .inr ⟨_, rfl⟩ | cases h

/-- The whole numbers of an integer type are those that it holds. -/
theorem intCast_mem_numbers_iff (h : s.isInteger = true) :
    (n : ℚ) ∈ s.numbers ↔ s.holdsInteger n = true := by
  rw [numbers_of_isInteger h]
  constructor
  · rintro ⟨m, hm, heq⟩
    rwa [Int.cast_inj.1 heq]
  · exact fun hn => ⟨n, hn, rfl⟩

/-- Whether all whole numbers of a type are in a set is asked number by number. -/
theorem numbers_subset_iff (h : s.isInteger = true) {numbers : Set ℚ} :
    s.numbers ⊆ numbers ↔ ∀ n : ℤ, s.holdsInteger n = true → (n : ℚ) ∈ numbers := by
  rw [numbers_of_isInteger h]
  constructor
  · exact fun h n hn => h ⟨n, hn, rfl⟩
  · rintro h _ ⟨n, hn, rfl⟩
    exact h n hn

/-- An integer type holds the numbers of no more digits than its own. -/
theorem holdsInteger_iff (h : s.isInteger = true) :
    s.holdsInteger n = true ↔
      (if s.isSigned then -2 ^ s.digits ≤ n else 0 ≤ n) ∧ n < 2 ^ s.digits := by
  rw [holdsInteger, integerRange, if_pos h, digits]
  cases s.isSigned <;>
    simp only [Bool.false_eq_true, if_false, if_true, Bool.and_eq_true, decide_eq_true_eq,
      Int.le_sub_one_iff] <;>
    rfl

/-- Of two integer types one widens the other if it has no fewer digits, and a sign if the other one
has. -/
theorem widens_iff_digits_le (ht : t.isInteger = true) (hs : s.isInteger = true) :
    t.widens s = true ↔ s.digits ≤ t.digits ∧ (s.isSigned = true → t.isSigned = true) := by
  have hwidth : ∀ p : Primitive, p.isInteger = true → 0 < p.bits ∧ p.isFloating = false := by
    intro p hp
    cases p <;> first | decide | cases hp
  obtain ⟨htBits, htFloating⟩ := hwidth t ht
  obtain ⟨hsBits, hsFloating⟩ := hwidth s hs
  simp only [widens, htFloating, hsFloating, digits]
  cases t.isSigned <;> cases s.isSigned <;> simp <;> omega

/-- Of two types of whole numbers, one has all numbers of the other exactly if it is wider and can
hold the signs. -/
theorem subset_iff_of_isInteger (ht : t.isInteger = true) (hs : s.isInteger = true) :
    s.numbers ⊆ t.numbers ↔ t.widens s = true := by
  rw [widens_iff_digits_le ht hs, numbers_subset_iff hs]
  simp only [intCast_mem_numbers_iff ht, holdsInteger_iff ht, holdsInteger_iff hs]
  have hpos : (0 : ℤ) < 2 ^ s.digits := by positivity
  have hpow : (2 : ℤ) ^ s.digits ≤ 2 ^ t.digits ↔ s.digits ≤ t.digits :=
    pow_le_pow_iff_right₀ (by decide)
  rw [← hpow]
  constructor
  · intro h
    -- The greatest number needs the digits, and minus one the sign.
    have hgreatest := h (2 ^ s.digits - 1) ⟨by split <;> omega, by omega⟩
    refine ⟨by omega, fun hsigned => ?_⟩
    have hnegative := h (-1) ⟨by rw [if_pos hsigned]; omega, by omega⟩
    by_contra hunsigned
    rw [if_neg hunsigned] at hnegative
    omega
  · rintro ⟨hdigits, hsign⟩ n ⟨hlow, hhigh⟩
    refine ⟨?_, by omega⟩
    cases hsigned : s.isSigned with
    | true =>
      rw [hsigned, if_pos rfl] at hlow
      rw [if_pos (hsign hsigned)]
      omega
    | false =>
      rw [hsigned, if_neg (by simp)] at hlow
      split <;> omega

/-- A format has some digits, and its least number is no whole number. -/
theorem exponents_of_format? (h : s.format? = some f) :
    f.precision ≠ 0 ∧ f.minExponent < 0 ∧ 0 ≤ f.maxExponent := by
  cases s <;> cases h <;> decide

/-- A format has more digits than the integer types that it widens, and fewer than the others. -/
theorem digits_of_widens (ht : t.format? = some f) (hs : s.isInteger = true) :
    if t.widens s then s.digits < f.precision else f.precision < s.digits := by
  cases t <;> cases ht <;> cases s <;> first | decide | cases hs

/-- The number after `2 ^ k` has no more digits than there are behind `k`. -/
theorem holdsInteger_succ {k : Nat} (hs : s.isInteger = true) (hk : k ≠ 0) (h : k < s.digits) :
    s.holdsInteger (2 ^ k + 1) = true := by
  have hone : (1 : ℤ) < 2 ^ k := one_lt_pow₀ (by decide) hk
  have hpow : (2 : ℤ) ^ k * 2 ≤ 2 ^ s.digits := by
    rw [← pow_succ]
    exact pow_le_pow_right₀ (by decide) h
  rw [holdsInteger_iff hs]
  exact ⟨by split <;> omega, by omega⟩

/-- A floating type has all whole numbers of another exactly if its precision has enough bits for
them. -/
theorem subset_iff_of_format? (ht : t.format? = some f) (hs : s.isInteger = true) :
    s.numbers ⊆ t.numbers ↔ t.widens s = true := by
  obtain ⟨hprecision, hmin, hmax⟩ := exponents_of_format? ht
  have hdigits := digits_of_widens ht hs
  rw [numbers_subset_iff hs, numbers_of_format? ht]
  constructor
  · intro h
    by_contra hnarrows
    rw [if_neg hnarrows] at hdigits
    exact Format.succ_not_mem_numbers hprecision (h _ (holdsInteger_succ hs hprecision hdigits))
  · intro hwidens n hn
    rw [if_pos hwidens] at hdigits
    have hpow : (2 : ℤ) ^ s.digits < 2 ^ f.precision := pow_lt_pow_right₀ (by decide) hdigits
    have hpos : (0 : ℤ) < 2 ^ s.digits := by positivity
    obtain ⟨hlow, hhigh⟩ := (holdsInteger_iff hs).1 hn
    refine Format.intCast_mem_numbers hmin.le hmax (abs_lt.2 ⟨?_, by omega⟩)
    split at hlow <;> omega

/-- No integer type has all numbers of a format, for one half is among them. -/
theorem not_subset_of_format? (ht : t.isInteger = true) (hs : s.format? = some f) :
    ¬s.numbers ⊆ t.numbers := by
  obtain ⟨hprecision, hmin, hmax⟩ := exponents_of_format? hs
  rw [numbers_of_format? hs, numbers_of_isInteger ht]
  intro h
  obtain ⟨n, -, hn⟩ := h (Format.half_mem_numbers hprecision hmin hmax)
  have hwhole : (1 : ℚ) = n * 2 := by
    rw [← hn]
    norm_num
  have hone : (1 : ℤ) = n * 2 := by exact_mod_cast hwhole
  omega

/-- Of two formats one widens the other if it has no less of anything, and else has fewer digits than
the other one has whole numbers. -/
theorem formats_of_widens (ht : t.format? = some f) (hs : s.format? = some g) :
    if t.widens s then
      g.precision ≤ f.precision ∧ f.minExponent ≤ g.minExponent ∧ g.maxExponent ≤ f.maxExponent
    else f.precision < g.precision := by
  cases t <;> cases ht <;> cases s <;> cases hs <;> decide

/-- Of two floating types, one has all numbers of the other exactly if it has all of its bits and
exponents. -/
theorem subset_iff_of_formats (ht : t.format? = some f) (hs : s.format? = some g) :
    s.numbers ⊆ t.numbers ↔ t.widens s = true := by
  obtain ⟨hprecision, -, -⟩ := exponents_of_format? ht
  obtain ⟨-, hmin, hmax⟩ := exponents_of_format? hs
  have hformats := formats_of_widens ht hs
  rw [numbers_of_format? ht, numbers_of_format? hs]
  constructor
  · intro h
    by_contra hnarrows
    rw [if_neg hnarrows] at hformats
    have hone : (1 : ℤ) < 2 ^ f.precision := one_lt_pow₀ (by decide) hprecision
    have hpow : (2 : ℤ) ^ f.precision * 2 ≤ 2 ^ g.precision := by
      rw [← pow_succ]
      exact pow_le_pow_right₀ (by decide) hformats
    refine Format.succ_not_mem_numbers hprecision (h (Format.intCast_mem_numbers hmin.le hmax ?_))
    rw [abs_of_pos (by omega)]
    omega
  · intro hwidens
    rw [if_pos hwidens] at hformats
    exact Format.numbers_mono hformats.1 hformats.2.1 hformats.2.2

/-- A numeric type widens another just if it has all of its numbers. -/
theorem widens_iff_subset (ht : t.isNumeric = true) (hs : s.isNumeric = true) :
    t.widens s = true ↔ s.numbers ⊆ t.numbers := by
  rcases isInteger_or_format? ht with ht | ⟨f, ht⟩ <;> rcases isInteger_or_format? hs with hs | ⟨g, hs⟩
  · exact (subset_iff_of_isInteger ht hs).symm
  · have hnarrows : t.widens s = false := by
      cases s <;> cases hs <;> cases t <;> first | rfl | cases ht
    rw [hnarrows]
    exact iff_of_false (by simp) (not_subset_of_format? ht hs)
  · exact (subset_iff_of_format? ht hs).symm
  · exact (subset_iff_of_formats ht hs).symm

/-- A numeric type keeps its own numbers. -/
theorem widens_self (h : t.isNumeric = true) : t.widens t = true :=
  (widens_iff_subset h h).2 subset_rfl

end Primitive

namespace Ty

variable {t s r : Ty} {p q : Primitive}

/-- Whether every value of the type `source` may be stored in a place of type `target` as it is. -/
def Keeps (target source : Ty) : Prop :=
  target.assign source = .exact ∨ target.assign source = .widening

/-- A numeric type keeps the values of another just if all its numbers are numbers of its own. -/
theorem keeps_primitive_iff (hp : p.isNumeric = true) (hq : q.isNumeric = true) :
    Keeps (.primitive p) (.primitive q) ↔ q.numbers ⊆ p.numbers := by
  rw [← Primitive.widens_iff_subset hp hq, Keeps, assign_eq_exact_iff]
  by_cases hsame : p = q
  · subst hsame
    exact iff_of_true (.inl rfl) (Primitive.widens_self hp)
  · have hne : Ty.primitive p ≠ .primitive q := fun heq => hsame (Ty.primitive.inj heq)
    simp [assign, hne, hp, hq]

/-- Values are kept by their own type, by numeric types, and arrays by the vector of their elements. -/
theorem Keeps.cases (h : t.Keeps s) :
    t = s ∨
      (∃ p q : Primitive, t = .primitive p ∧ s = .primitive q ∧ p.isNumeric = true ∧
        q.isNumeric = true) ∨
      ∃ element size, t = .array element none ∧ s = .array element size := by
  rcases h with hexact | hwidening
  · exact .inl (assign_eq_exact_iff.1 hexact)
  · unfold assign at hwidening
    split at hwidening
    · exact .inl ‹_›
    · rename_i hne
      split at hwidening
      · split at hwidening
        · rename_i p q hnumeric
          rw [Bool.and_eq_true] at hnumeric
          exact .inr (.inl ⟨p, q, rfl, rfl, hnumeric.1, hnumeric.2⟩)
        · cases hwidening
      · rename_i element size element' size'
        split at hwidening
        · rename_i hsizes
          simp only [Bool.and_eq_true, Bool.or_eq_true, decide_eq_true_eq] at hsizes
          obtain ⟨rfl, rfl | rfl⟩ := hsizes
          · exact .inr (.inr ⟨element, size', rfl, rfl⟩)
          · exact absurd rfl hne
        · cases hwidening
      · cases hwidening

/-- A vector keeps what an array of the same elements has. -/
theorem keeps_vector (element : Ty) (size : Option Nat) :
    Keeps (.array element none) (.array element size) := by
  by_cases hsame : size = none
  · subst hsame
    exact .inl (assign_eq_exact_iff.2 rfl)
  · exact .inr (by simp [assign, Ne.symm hsame])

/-- What is kept by a type that another type keeps is kept by that too. -/
theorem Keeps.trans (h : t.Keeps s) (h' : s.Keeps r) : t.Keeps r := by
  rcases h.cases with rfl | ⟨p, q, rfl, rfl, hp, hq⟩ | ⟨element, size, rfl, rfl⟩
  · exact h'
  · rcases h'.cases with rfl | ⟨q', o, heq, rfl, -, ho⟩ | ⟨_, _, heq, -⟩
    · exact h
    · -- Among numeric types, it is the inclusion of their numbers that goes on.
      cases heq
      rw [keeps_primitive_iff hp hq] at h
      rw [keeps_primitive_iff hq ho] at h'
      exact (keeps_primitive_iff hp ho).2 (h'.trans h)
    · cases heq
  · rcases h'.cases with rfl | ⟨_, _, heq, -⟩ | ⟨_, size', heq, rfl⟩
    · exact h
    · cases heq
    · cases heq
      exact keeps_vector element size'

/-- Storing is exact for the same type and no other, what is stored without loss is stored without loss
further on, and numbers are stored without loss just where they all are numbers of the other type. -/
theorem assign_keeps_numbers :
    (∀ t s : Ty, t.assign s = .exact ↔ t = s) ∧
      (∀ t s r : Ty, t.Keeps s → s.Keeps r → t.Keeps r) ∧
      ∀ p q : Primitive, p.isNumeric = true → q.isNumeric = true →
        (Keeps (.primitive p) (.primitive q) ↔ q.numbers ⊆ p.numbers) :=
  ⟨fun _ _ => assign_eq_exact_iff, fun _ _ _ => Keeps.trans, fun _ _ => keeps_primitive_iff⟩

/-- A byte is stored in a float of 64 bits without loss. -/
theorem byteInDouble_keeps_numbers :
    Keeps (.primitive .f64) (.primitive .u8) ∧ Primitive.u8.numbers ⊆ Primitive.f64.numbers := by
  have hword : Keeps (.primitive .f64) (.primitive .u32) := .inr (by decide)
  have hbyte : Keeps (.primitive .u32) (.primitive .u8) := .inr (by decide)
  obtain ⟨-, htrans, hnumbers⟩ := assign_keeps_numbers
  have hkept := htrans _ _ _ hword hbyte
  exact ⟨hkept, (hnumbers .f64 .u8 rfl rfl).1 hkept⟩

end Ty

end Sprout
