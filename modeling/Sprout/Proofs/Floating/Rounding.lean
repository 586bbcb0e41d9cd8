import Mathlib.Algebra.Order.Field.Power
import Mathlib.Algebra.Order.Field.Rat
import Mathlib.Tactic.FieldSimp
import Mathlib.Tactic.Positivity
import Mathlib.Tactic.Ring
import Sprout.Floating

namespace Sprout.Floating

/-- The number that a mantissa and an exponent stand for. -/
def amount (mantissa : Nat) (exponent : Int) : ℚ :=
  mantissa * 2 ^ exponent

/-- A power of two is the same as a natural and as a rational number. -/
theorem cast_twoPower (exponent : Nat) : (twoPower exponent : ℚ) = 2 ^ (exponent : Int) := by
  rw [zpow_natCast, ← Nat.cast_two, ← Nat.cast_pow]
  rfl

/-- A power of two is positive. -/
theorem twoPower_pos (exponent : Nat) : 0 < twoPower exponent :=
  Nat.pow_pos (by decide)

/-- Scaling is exact. -/
theorem scaleDown_eq {num den n d : Nat} {exponent : Int} (hden : 0 < den)
    (h : scaleDown num den exponent = (n, d)) :
    0 < d ∧ (n / d : ℚ) = num / den / 2 ^ exponent := by
  unfold scaleDown at h
  split at h
  · obtain ⟨rfl, rfl⟩ := Prod.mk.inj h
    refine ⟨Nat.mul_pos hden (twoPower_pos _), ?_⟩
    rw [Nat.cast_mul, cast_twoPower, Int.toNat_of_nonneg ‹_›, div_div]
  · obtain ⟨rfl, rfl⟩ := Prod.mk.inj h
    refine ⟨hden, ?_⟩
    rw [Nat.cast_mul, cast_twoPower, Int.toNat_of_nonneg (by omega), zpow_neg]
    ring

/-- Where the leading bit of a number stands. -/
theorem log2_bounds {n : Nat} (h : 0 < n) :
    (2 : ℚ) ^ (n.log2 : Int) ≤ n ∧ (n : ℚ) < 2 ^ ((n.log2 : Int) + 1) := by
  rw [← Int.natCast_succ, zpow_natCast, zpow_natCast]
  exact ⟨by exact_mod_cast Nat.log2_self_le h.ne', by exact_mod_cast Nat.lt_log2_self⟩

/-- A whole quotient is not changed. -/
theorem roundEven_mul {m den : Nat} (hden : 0 < den) : roundEven (m * den) den = m := by
  simp [roundEven, hden]

/-- A quotient is rounded to one of its neighbours. -/
theorem roundEven_bounds (num den : Nat) :
    num / den ≤ roundEven num den ∧ roundEven num den ≤ num / den + 1 := by
  unfold roundEven
  dsimp only
  repeat' split
  all_goals omega

namespace Format

variable {f g : Format} {num den m m' : Nat} {e e' : Int} {negative : Bool}

/-- The exponent is the one at which the mantissa has all its bits, or the least of the format. -/
theorem exponentFor_eq (f : Format) (hnum : 0 < num) (hden : 0 < den) :
    ∃ full : Int, f.exponentFor num den = max full f.minExponent ∧
      (2 : ℚ) ^ (full + f.precision - 1) ≤ num / den ∧
      (num / den : ℚ) < 2 ^ (full + f.precision) := by
  obtain ⟨low, hlow⟩ : ∃ low : Int, low = (num.log2 : Int) - den.log2 - f.precision := ⟨_, rfl⟩
  obtain ⟨n, d, hscale⟩ : ∃ n d, scaleDown num den low = (n, d) := ⟨_, _, rfl⟩
  have hexponent : f.exponentFor num den =
      max (if n / d < twoPower f.precision then low else low + 1) f.minExponent := by
    rw [exponentFor, ← hlow, hscale]
  -- The quotient of two numbers with leading bits `2 ^ a` and `2 ^ b` has its own at one of two
  -- places.
  have hdivisor : (0 : ℚ) < den := by exact_mod_cast hden
  obtain ⟨hnumLow, hnumHigh⟩ := log2_bounds hnum
  obtain ⟨hdenLow, hdenHigh⟩ := log2_bounds hden
  have hleast : (2 : ℚ) ^ (low + f.precision - 1) ≤ num / den := by
    rw [le_div_iff₀ hdivisor]
    calc (2 : ℚ) ^ (low + f.precision - 1) * den
        ≤ 2 ^ (low + f.precision - 1) * 2 ^ ((den.log2 : Int) + 1) := by gcongr
      _ = 2 ^ (num.log2 : Int) := by
        rw [← zpow_add₀ two_ne_zero, hlow]
        congr 1
        ring
      _ ≤ num := hnumLow
  have hgreatest : (num / den : ℚ) < 2 ^ (low + 1 + f.precision) := by
    rw [div_lt_iff₀ hdivisor]
    calc (num : ℚ) < 2 ^ ((num.log2 : Int) + 1) := hnumHigh
      _ = 2 ^ (low + 1 + f.precision) * 2 ^ (den.log2 : Int) := by
        rw [← zpow_add₀ two_ne_zero, hlow]
        congr 1
        ring
      _ ≤ 2 ^ (low + 1 + f.precision) * den := by gcongr
  obtain ⟨hd, hquotient⟩ := scaleDown_eq hden hscale
  have hbelow : n / d < twoPower f.precision ↔ (num / den : ℚ) < 2 ^ (low + f.precision) := by
    have hd' : (0 : ℚ) < d := by exact_mod_cast hd
    rw [Nat.div_lt_iff_lt_mul hd, zpow_add₀ two_ne_zero, mul_comm ((2 : ℚ) ^ low),
      ← div_lt_iff₀ (by positivity), ← hquotient, div_lt_iff₀ hd', ← cast_twoPower]
    exact_mod_cast Iff.rfl
  by_cases hfits : n / d < twoPower f.precision
  · exact ⟨low, by rw [hexponent, if_pos hfits], hleast, hbelow.1 hfits⟩
  · refine ⟨low + 1, by rw [hexponent, if_neg hfits], ?_, hgreatest⟩
    rw [hbelow, not_lt] at hfits
    rwa [add_right_comm, add_sub_cancel_right]

/-- A mantissa and an exponent are the canonical form of a number: the mantissa has all its bits,
unless the exponent is the least. Every number of a format has just one such form, and is rounded to
it however it is written. -/
structure Canonical (f : Format) (mantissa : Nat) (exponent : Int) : Prop where
  fits : mantissa < 2 ^ f.precision
  least : f.minExponent ≤ exponent
  greatest : exponent ≤ f.maxExponent
  full : 2 ^ f.precision ≤ 2 * mantissa ∨ exponent = f.minExponent

/-- The exponent found for a number in canonical form is its own: the least one at which the number
has no more bits than a mantissa may have. -/
theorem Canonical.exponentFor_eq (h : f.Canonical m e) (hnum : 0 < num) (hden : 0 < den)
    (hamount : (num / den : ℚ) = amount m e) : f.exponentFor num den = e := by
  obtain ⟨full, hexponent, hlow, hhigh⟩ := f.exponentFor_eq hnum hden
  rw [hamount, amount] at hlow hhigh
  have habove : full + f.precision - 1 < f.precision + e := by
    apply (zpow_lt_zpow_iff_right₀ (one_lt_two : (1 : ℚ) < 2)).1
    refine hlow.trans_lt ?_
    rw [zpow_add₀ two_ne_zero, zpow_natCast]
    gcongr
    exact_mod_cast h.fits
  have hleast := h.least
  rw [hexponent]
  rcases h.full with hfull | hfull
  · have hbelow : f.precision + e - 1 < full + f.precision := by
      apply (zpow_lt_zpow_iff_right₀ (one_lt_two : (1 : ℚ) < 2)).1
      refine lt_of_le_of_lt ?_ hhigh
      have hfull' : (2 : ℚ) ^ f.precision ≤ 2 * m := by exact_mod_cast hfull
      rw [zpow_sub_one₀ two_ne_zero, zpow_add₀ two_ne_zero, zpow_natCast]
      calc (2 : ℚ) ^ f.precision * 2 ^ e * 2⁻¹ ≤ 2 * m * 2 ^ e * 2⁻¹ := by gcongr
        _ = m * 2 ^ e := by ring
    omega
  · omega

/-- A number that has a canonical form is rounded to it. At its own exponent it is a whole multiple,
so that rounding changes nothing. -/
theorem Canonical.round_eq (h : f.Canonical m e) (hden : 0 < den)
    (hamount : (num / den : ℚ) = amount m e) :
    f.round negative num den = .finite negative m e := by
  have hdivisor : (den : ℚ) ≠ 0 := by exact_mod_cast hden.ne'
  have hzero : num = 0 ↔ m = 0 := by
    have hpow : (2 : ℚ) ^ e ≠ 0 := zpow_ne_zero e two_ne_zero
    rw [amount, div_eq_iff hdivisor] at hamount
    constructor
    · rintro rfl
      simpa [hpow, hdivisor] using hamount.symm
    · rintro rfl
      simpa using hamount
  by_cases hnum : num = 0
  · have hm := hzero.1 hnum
    have hleast : e = f.minExponent := by
      refine h.full.resolve_left fun hfull => ?_
      have hpos : 0 < 2 ^ f.precision := twoPower_pos f.precision
      omega
    rw [round, if_pos hnum, zero, hm, hleast]
  · obtain ⟨n, d, hscale⟩ : ∃ n d, scaleDown num den e = (n, d) := ⟨_, _, rfl⟩
    obtain ⟨hd, hquotient⟩ := scaleDown_eq hden hscale
    have hn : n = m * d := by
      rw [hamount, amount, mul_div_cancel_right₀ _ (zpow_ne_zero e two_ne_zero),
        div_eq_iff (by exact_mod_cast hd.ne')] at hquotient
      exact_mod_cast hquotient
    have hcarried : m ≠ twoPower f.precision := h.fits.ne
    rw [round, if_neg hnum, h.exponentFor_eq (by omega) hden hamount]
    dsimp only
    rw [hscale, hn]
    simp [pack, roundEven_mul hd, hcarried, h.greatest.not_gt]

/-- However a number is written, it is rounded to its canonical form. -/
theorem Canonical.recast_eq (h : f.Canonical m e) (hamount : amount m' e' = amount m e) :
    f.recast (.finite negative m' e') = .finite negative m e := by
  rw [recast, roundScaled]
  split
  · apply h.round_eq Nat.one_pos
    rw [← hamount, amount, Nat.cast_mul, cast_twoPower, Int.toNat_of_nonneg ‹_›]
    simp
  · apply h.round_eq (twoPower_pos _)
    rw [← hamount, amount, cast_twoPower, Int.toNat_of_nonneg (by omega), zpow_neg, div_inv_eq_mul]

/-- The values that can be stored in a format: canonical forms, the infinities, and not a number. -/
inductive Holds (f : Format) : Floating → Prop
  | finite {negative : Bool} {mantissa : Nat} {exponent : Int}
      (h : f.Canonical mantissa exponent) : f.Holds (.finite negative mantissa exponent)
  | infinite (negative : Bool) : f.Holds (.infinite negative)
  | nan : f.Holds .nan

/-- A mantissa of at most all its bits is packed to a value of the format. -/
theorem holds_pack (hprecision : 0 < f.precision) (hfits : m ≤ 2 ^ f.precision)
    (hleast : f.minExponent ≤ e) (hfull : 2 ^ f.precision ≤ 2 * m ∨ e = f.minExponent) :
    f.Holds (f.pack negative m e) := by
  obtain ⟨p, hp⟩ := Nat.exists_eq_add_one_of_ne_zero hprecision.ne'
  have hpos : 0 < 2 ^ p := twoPower_pos p
  have htwice : 2 ^ f.precision = 2 * 2 ^ p := by rw [hp, Nat.pow_succ, Nat.mul_comm]
  have htop : twoPower f.precision = 2 * 2 ^ p := htwice
  unfold pack
  by_cases hcarried : m = twoPower f.precision
  · simp only [hcarried, if_true]
    split
    · exact .infinite negative
    · exact .finite ⟨by omega, by omega, by omega, by omega⟩
  · simp only [hcarried, if_false]
    split
    · exact .infinite negative
    · exact .finite ⟨by omega, hleast, by omega, hfull⟩

/-- Rounding gives a value of the format. Rounding up may give a mantissa of one bit more, which is
then a power of two, and goes on with the next exponent. -/
theorem holds_round (hprecision : 0 < f.precision) (hexponents : f.minExponent ≤ f.maxExponent)
    (hden : 0 < den) : f.Holds (f.round negative num den) := by
  rw [round]
  by_cases hnum : num = 0
  · rw [if_pos hnum]
    exact .finite ⟨twoPower_pos _, le_rfl, hexponents, .inr rfl⟩
  · have hpositive : 0 < num := Nat.pos_of_ne_zero hnum
    obtain ⟨full, hexponent, hlow, hhigh⟩ := f.exponentFor_eq hpositive hden
    obtain ⟨n, d, hscale⟩ : ∃ n d, scaleDown num den (f.exponentFor num den) = (n, d) := ⟨_, _, rfl⟩
    obtain ⟨hd, hquotient⟩ := scaleDown_eq hden hscale
    obtain ⟨hbelow, habove⟩ := roundEven_bounds n d
    have hd' : (0 : ℚ) < d := by exact_mod_cast hd
    -- The quotient has at most as many bits as a mantissa, and as many unless the exponent is the
    -- least.
    have hfits : n / d < 2 ^ f.precision := by
      have hbound : (n / d : ℚ) < 2 ^ f.precision := by
        rw [hquotient, div_lt_iff₀ (by positivity)]
        refine hhigh.trans_le ?_
        rw [← zpow_natCast, ← zpow_add₀ two_ne_zero]
        exact zpow_le_zpow_right₀ one_le_two (by omega)
      rw [Nat.div_lt_iff_lt_mul hd]
      rw [div_lt_iff₀ hd'] at hbound
      exact_mod_cast hbound
    have hfull : 2 ^ f.precision ≤ 2 * (n / d) ∨ f.exponentFor num den = f.minExponent := by
      refine or_iff_not_imp_right.2 fun habove => ?_
      have hown : f.exponentFor num den = full := by omega
      obtain ⟨p, hp⟩ := Nat.exists_eq_add_one_of_ne_zero hprecision.ne'
      have hbound : (2 : ℚ) ^ p ≤ n / d := by
        rw [hquotient, hown, le_div_iff₀ (by positivity), ← zpow_natCast, ← zpow_add₀ two_ne_zero]
        refine hlow.trans' (zpow_le_zpow_right₀ one_le_two ?_)
        omega
      have hleast : 2 ^ p ≤ n / d := by
        rw [Nat.le_div_iff_mul_le hd]
        rw [le_div_iff₀ hd'] at hbound
        exact_mod_cast hbound
      rw [hp, Nat.pow_succ]
      omega
    rw [if_neg hnum]
    dsimp only
    rw [hscale]
    dsimp only
    exact holds_pack hprecision (by omega) (by omega) (hfull.imp_left fun hfull => by omega)

/-- Whatever is rounded becomes a value of the format. -/
theorem holds_recast (hprecision : 0 < f.precision) (hexponents : f.minExponent ≤ f.maxExponent)
    (x : Floating) : f.Holds (f.recast x) := by
  cases x with
  | finite negative m e =>
    rw [recast, roundScaled]
    split
    · exact holds_round hprecision hexponents Nat.one_pos
    · exact holds_round hprecision hexponents (twoPower_pos _)
  | infinite negative => exact .infinite negative
  | nan => exact .nan

/-- The numbers of a format are numbers of every format with more bits and a wider range. -/
theorem Canonical.widen (h : f.Canonical m e) (hprecision : f.precision ≤ g.precision)
    (hleast : g.minExponent + g.precision ≤ f.minExponent)
    (hgreatest : f.maxExponent ≤ g.maxExponent) :
    ∃ m' e', g.Canonical m' e' ∧ amount m' e' = amount m e := by
  have hrange := h.least
  have hbound := h.greatest
  rcases Nat.eq_zero_or_pos m with rfl | hm
  · exact ⟨0, g.minExponent, ⟨twoPower_pos _, le_rfl, by omega, .inr rfl⟩, by simp [amount]⟩
  · have hbits : m.log2 < f.precision := (Nat.log2_lt hm.ne').2 h.fits
    obtain ⟨k, hk⟩ := Nat.exists_eq_add_of_lt (hbits.trans_le hprecision)
    have hlow : 2 ^ m.log2 ≤ m := Nat.log2_self_le hm.ne'
    have hhigh : m < 2 ^ (m.log2 + 1) := Nat.lt_log2_self
    refine ⟨m * 2 ^ k, e - k, ⟨?_, by omega, by omega, .inl ?_⟩, ?_⟩
    · calc m * 2 ^ k < 2 ^ (m.log2 + 1) * 2 ^ k := by gcongr
        _ = 2 ^ g.precision := by rw [hk, ← Nat.pow_add]; congr 1; omega
    · calc 2 ^ g.precision = 2 * (2 ^ m.log2 * 2 ^ k) := by
            rw [hk, Nat.pow_succ, Nat.pow_add, Nat.mul_comm]
        _ ≤ 2 * (m * 2 ^ k) := by gcongr
    · rw [amount, amount, zpow_sub₀ two_ne_zero, zpow_natCast]
      push_cast
      field_simp

/-- A value of a format comes back unchanged from every format with more bits and a wider range,
because it has a canonical form there as well. -/
theorem Holds.recast_recast {x : Floating} (h : f.Holds x) (hprecision : f.precision ≤ g.precision)
    (hleast : g.minExponent + g.precision ≤ f.minExponent)
    (hgreatest : f.maxExponent ≤ g.maxExponent) : f.recast (g.recast x) = x := by
  cases h with
  | finite hcanonical =>
    obtain ⟨m', e', hwide, hamount⟩ := hcanonical.widen hprecision hleast hgreatest
    rw [hwide.recast_eq hamount.symm, hcanonical.recast_eq hamount]
  | infinite | nan => rfl

/-- Rounding a value to single precision and seeing it in double precision again, as a conversion
does, changes nothing when it is done once more. -/
theorem recast_idempotent (x : Floating) :
    double.recast (single.recast (double.recast (single.recast x))) =
      double.recast (single.recast x) := by
  have hholds : single.Holds (single.recast x) := holds_recast (by decide) (by decide) x
  rw [hholds.recast_recast (by decide) (by decide) (by decide)]

end Format

end Sprout.Floating
