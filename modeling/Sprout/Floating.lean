namespace Sprout

/-- A floating-point value. The finite value is `mantissa * 2 ^ exponent` with its sign; zero is
signed too. Everything about them is computed exactly, on whole numbers. -/
inductive Floating
  | finite (negative : Bool) (mantissa : Nat) (exponent : Int)
  | infinite (negative : Bool)
  | nan
deriving DecidableEq, Repr, Inhabited

namespace Floating

/-- The values of a width: mantissas of at most `precision` bits, and exponents between
`minExponent` and `maxExponent`. A format says which values can be stored. -/
structure Format where
  precision : Nat
  minExponent : Int
  maxExponent : Int
deriving DecidableEq, Repr

/-- Single precision: 32 bits. -/
def Format.single : Format := ⟨24, -149, 104⟩

/-- Double precision: 64 bits. -/
def Format.double : Format := ⟨53, -1074, 971⟩

/-- The quotient `num / den` rounded to a whole number, a half to the even neighbour. -/
def roundEven (num den : Nat) : Nat :=
  let whole := num / den
  let twice := 2 * (num % den)
  if twice < den then whole
  else if den < twice then whole + 1
  else if whole % 2 = 0 then whole
  else whole + 1

/-- A power of two. -/
def twoPower (exponent : Nat) : Nat :=
  Nat.pow 2 exponent

/-- Numerator and denominator of `num / den` divided by `2 ^ exponent`. -/
def scaleDown (num den : Nat) (exponent : Int) : Nat × Nat :=
  if 0 ≤ exponent then (num, den * twoPower exponent.toNat)
  else (num * twoPower (-exponent).toNat, den)

namespace Format

/-- The zero of a format with a given sign. -/
def zero (f : Format) (negative : Bool) : Floating :=
  .finite negative 0 f.minExponent

/-- The value with a given mantissa and exponent; infinite if the exponent is too large. A mantissa
that rounding carried to `2 ^ precision` is halved. -/
def pack (f : Format) (negative : Bool) (mantissa : Nat) (exponent : Int) : Floating :=
  let carried := mantissa = twoPower f.precision
  let mantissa := if carried then mantissa / 2 else mantissa
  let exponent := if carried then exponent + 1 else exponent
  if f.maxExponent < exponent then .infinite negative else .finite negative mantissa exponent

/-- The exponent at which `num / den`, both positive, has a mantissa of exactly `precision` bits, or
the least exponent of the format if that is greater. -/
def exponentFor (f : Format) (num den : Nat) : Int :=
  let low := (num.log2 : Int) - den.log2 - f.precision
  let (n, d) := scaleDown num den low
  max (if n / d < twoPower f.precision then low else low + 1) f.minExponent

/-- The value of the format nearest to `num / den`, where `den` is positive; a tie goes to the even
mantissa. -/
def round (f : Format) (negative : Bool) (num den : Nat) : Floating :=
  if num = 0 then f.zero negative
  else
    let exponent := f.exponentFor num den
    let (n, d) := scaleDown num den exponent
    f.pack negative (roundEven n d) exponent

/-- The value of the format nearest to `mantissa * 2 ^ exponent`. -/
def roundScaled (f : Format) (negative : Bool) (mantissa : Nat) (exponent : Int) : Floating :=
  if 0 ≤ exponent then f.round negative (mantissa * twoPower exponent.toNat) 1
  else f.round negative mantissa (twoPower (-exponent).toNat)

/-- The value of the format nearest to a whole number. -/
def ofInt (f : Format) (value : Int) : Floating :=
  f.round (value < 0) value.natAbs 1

/-- The value of the format nearest to a value of any format. -/
def recast (f : Format) : Floating → Floating
  | .finite negative mantissa exponent => f.roundScaled negative mantissa exponent
  | other => other

end Format

/-- Whether the value is neither infinite nor not a number. -/
def isFinite : Floating → Bool
  | finite .. => true
  | _ => false

/-- The whole part of a finite value, rounded toward zero. -/
def truncate? : Floating → Option Int
  | finite negative mantissa exponent =>
    let (n, d) := scaleDown mantissa 1 (-exponent)
    some (if negative then -(n / d : Nat) else (n / d : Nat))
  | _ => none

end Floating

end Sprout
