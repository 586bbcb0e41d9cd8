import Sprout.Floating

namespace Sprout.Floating

/-- A magnitude with its sign. -/
def signed (negative : Bool) (magnitude : Nat) : Int :=
  if negative then -magnitude else magnitude

/-- The value with the opposite sign. -/
def neg : Floating → Floating
  | finite negative mantissa exponent => finite (!negative) mantissa exponent
  | infinite negative => infinite (!negative)
  | nan => nan

/-- The sum: the exact result, rounded once. A sum of exactly zero is negative only if both parts
are. -/
def add (f : Format) : Floating → Floating → Floating
  | nan, _ => nan
  | _, nan => nan
  | infinite a, infinite b => if a = b then infinite a else nan
  | infinite a, finite .. => infinite a
  | finite .., infinite b => infinite b
  | finite a m j, finite b n k =>
    let low := min j k
    let sum := signed a (m * twoPower (j - low).toNat) + signed b (n * twoPower (k - low).toNat)
    if sum = 0 then f.zero (a && b) else f.roundScaled (sum < 0) sum.natAbs low

/-- The difference. -/
def sub (f : Format) (x y : Floating) : Floating :=
  add f x y.neg

/-- The product. -/
def mul (f : Format) : Floating → Floating → Floating
  | nan, _ => nan
  | _, nan => nan
  | infinite a, infinite b => infinite (a != b)
  | infinite a, finite b n _ => if n = 0 then nan else infinite (a != b)
  | finite a m _, infinite b => if m = 0 then nan else infinite (a != b)
  | finite a m j, finite b n k => f.roundScaled (a != b) (m * n) (j + k)

/-- The quotient. -/
def div (f : Format) : Floating → Floating → Floating
  | nan, _ => nan
  | _, nan => nan
  | infinite _, infinite _ => nan
  | infinite a, finite b .. => infinite (a != b)
  | finite a .., infinite b => f.zero (a != b)
  | finite a m j, finite b n k =>
    if n = 0 then if m = 0 then nan else infinite (a != b)
    else
      let (num, den) := scaleDown m n (k - j)
      f.round (a != b) num den

/-- The remainder of the division rounded toward zero; it has the sign of the dividend. -/
def rem (f : Format) : Floating → Floating → Floating
  | nan, _ => nan
  | _, nan => nan
  | infinite _, _ => nan
  | finite a m j, infinite _ => finite a m j
  | finite a m j, finite _ n k =>
    if n = 0 then nan
    else
      let low := min j k
      f.roundScaled a (m * twoPower (j - low).toNat % (n * twoPower (k - low).toNat)) low

/-- The order of two values; there is none if one is not a number. The two zeros are equal. -/
def compare? : Floating → Floating → Option Ordering
  | nan, _ => none
  | _, nan => none
  | infinite a, infinite b => some (compare b.toNat a.toNat)
  | infinite a, finite .. => some (if a then .lt else .gt)
  | finite .., infinite b => some (if b then .gt else .lt)
  | finite a m j, finite b n k =>
    let low := min j k
    let left := signed a (m * twoPower (j - low).toNat)
    let right := signed b (n * twoPower (k - low).toNat)
    some (compare left right)

/-- The machine word of a double-precision value. -/
def toWord : Floating → UInt64
  | finite negative mantissa exponent =>
    let magnitude :=
      if mantissa < twoPower 52 then mantissa
      else (exponent + 1075).toNat * twoPower 52 + (mantissa - twoPower 52)
    UInt64.ofNat ((if negative then twoPower 63 else 0) + magnitude)
  | infinite negative => UInt64.ofNat ((if negative then twoPower 63 else 0) + 2047 * twoPower 52)
  | nan => UInt64.ofNat (2047 * twoPower 52 + twoPower 51)

/-- The double-precision value of a machine word. -/
def ofWord (word : UInt64) : Floating :=
  let negative : Bool := twoPower 63 ≤ word.toNat
  let exponent : Nat := word.toNat / twoPower 52 % 2048
  let fraction := word.toNat % twoPower 52
  if exponent = 2047 then if fraction = 0 then infinite negative else nan
  else if exponent = 0 then finite negative fraction (-1074)
  else finite negative (fraction + twoPower 52) ((exponent : Int) - 1075)

/-- The power of two double-precision values, as the machine computes it. -/
def pow (x y : Floating) : Floating :=
  ofWord (Float.pow (Float.ofBits x.toWord) (Float.ofBits y.toWord)).toBits

end Sprout.Floating
