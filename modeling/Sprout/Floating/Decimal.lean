import Sprout.Source
import Sprout.Floating

namespace Sprout.Floating

/-- The number `digits * 10 ^ exponent`. A value is written with the fewest digits that read back as
the same value of its format, and of those with the nearest; a tie goes up. -/
structure Decimal where
  digits : Nat
  exponent : Int
deriving DecidableEq, Repr

/-- How many decimal digits a number has; zero has none. -/
def digitCount (n : Nat) : Nat :=
  if n = 0 then 0 else (Nat.toDigits 10 n).length

/-- The number of digits before the decimal point of the positive quotient `num / den`: the least
power of ten above it. It is not positive for quotients below one tenth. -/
def magnitude (num den : Nat) : Int :=
  if den ≤ num then digitCount (num / den) else 1 - digitCount ((den - 1) / num)

/-- Numerator and denominator of `num / den` divided by `10 ^ exponent`. -/
def shiftDown (num den : Nat) (exponent : Int) : Nat × Nat :=
  if 0 ≤ exponent then (num, den * Nat.pow 10 exponent.toNat)
  else (num * Nat.pow 10 (-exponent).toNat, den)

/-- An interval of numbers around a value, all in the unit `num / den`. Its ends belong to it if it
is `closed`. -/
structure Interval where
  low : Nat
  value : Nat
  high : Nat
  num : Nat
  den : Nat
  closed : Bool
deriving DecidableEq, Repr

/-- The numbers that round to `mantissa * 2 ^ exponent`, in quarters of the last binary place. Below
a power of two the values stand twice as close. -/
def Format.interval (f : Format) (mantissa : Nat) (exponent : Int) : Interval :=
  let (num, den) := scaleDown 1 1 (2 - exponent)
  let isPower := mantissa = twoPower (f.precision - 1) && f.minExponent < exponent
  { low := 4 * mantissa - (if isPower then 1 else 2)
    value := 4 * mantissa
    high := 4 * mantissa + 2
    num, den
    closed := mantissa % 2 = 0 }

/-- The multiple of `10 ^ exponent` in the interval that is nearest to its value; a tie goes up. -/
def Interval.nearest? (i : Interval) (exponent : Int) : Option Nat :=
  let (num, den) := shiftDown i.num i.den exponent
  let inside (digits : Nat) : Bool :=
    if i.closed then i.low * num ≤ digits * den && digits * den ≤ i.high * num
    else i.low * num < digits * den && digits * den < i.high * num
  let below := i.value * num / den
  let left := i.value * num % den
  if left = 0 then some below
  else
    match inside below, inside (below + 1) with
    | true, true => some (if 2 * left < den then below else below + 1)
    | true, false => some below
    | false, true => some (below + 1)
    | false, false => none

/-- The first hit among the multiples of `10 ^ exponent`, then of ever smaller powers of ten, at
most `count` more of them. -/
def Interval.search (i : Interval) (exponent : Int) : Nat → Decimal
  | 0 => ⟨(i.nearest? exponent).getD 0, exponent⟩
  | count + 1 =>
    match i.nearest? exponent with
    | some digits => ⟨digits, exponent⟩
    | none => i.search (exponent - 1) count

/-- The same number without zeros at the end of its digits. -/
def Decimal.trim (d : Decimal) : Decimal :=
  if d.digits = 0 || d.digits % 10 ≠ 0 then d else trim ⟨d.digits / 10, d.exponent + 1⟩
termination_by d.digits
decreasing_by simp_all; omega

/-- The shortest decimal that rounds to the positive value `mantissa * 2 ^ exponent`. Seventeen
digits tell any two values of double precision apart. -/
def Format.shortest (f : Format) (mantissa : Nat) (exponent : Int) : Decimal :=
  let i := f.interval mantissa exponent
  (i.search (magnitude (i.value * i.num) i.den - 1) 17).trim

/-- Where a text changes from places around a point to a power of ten. -/
structure Layout where
  /-- The least power of ten whose multiples are written out. -/
  positionalFrom : Int
  /-- The least power of ten that is not written out any more. -/
  positionalBelow : Int
deriving DecidableEq, Repr

/-- Literals are written out from `0.0001` up to, but not including, `1e16`. -/
def Layout.literal : Layout := ⟨-4, 16⟩

/-- The digits around a point of which `whole` digits stand before it; there is always a digit on
either side of the point. -/
def pointed (digits : String) (whole : Int) : String :=
  if whole ≤ 0 then "0." ++ repeated '0' (-whole).toNat ++ digits
  else if digits.length ≤ whole.toNat then
    digits ++ repeated '0' (whole.toNat - digits.length) ++ ".0"
  else
    String.ofList (digits.toList.take whole.toNat) ++ "." ++
      String.ofList (digits.toList.drop whole.toNat)

/-- One digit, a point and the others if there are any, and a power of ten. -/
def scientific (digits : String) (power : Int) : String :=
  match digits.toList with
  | [] => ""
  | [digit] => digit.toString ++ "e" ++ toString power
  | digit :: others => digit.toString ++ "." ++ String.ofList others ++ "e" ++ toString power

/-- The text of a decimal in a layout. -/
def Layout.write (layout : Layout) (d : Decimal) : String :=
  let digits := toString d.digits
  let whole : Int := digits.length + d.exponent
  if d.digits = 0 then "0.0"
  else if layout.positionalFrom < whole && whole ≤ layout.positionalBelow then pointed digits whole
  else scientific digits (whole - 1)

/-- The text of a value of a format. -/
def Format.write (f : Format) : Floating → String
  | .nan => "NaN"
  | .infinite negative => if negative then "-inf" else "inf"
  | .finite negative mantissa exponent =>
    let decimal := if mantissa = 0 then ⟨0, 0⟩ else f.shortest mantissa exponent
    (if negative then "-" else "") ++ Layout.literal.write decimal

/-- The number that decimal digits denote. -/
def digitsValue (digits : List Char) : Nat :=
  digits.foldl (fun value c => 10 * value + (c.toNat - '0'.toNat)) 0

/-- An optional sign at the front of a text: whether it is a minus sign, and what follows it. -/
def readSign : List Char → Bool × List Char
  | '-' :: rest => (true, rest)
  | '+' :: rest => (false, rest)
  | text => (false, text)

/-- A text that is an exponent and nothing else, or nothing at all. -/
def readExponent? : List Char → Option Int
  | [] => some 0
  | e :: rest =>
    if e = 'e' || e = 'E' then
      let (negative, digits) := readSign rest
      if digits ≠ [] && digits.all Char.isDigit then
        some (if negative then -(digitsValue digits : Int) else digitsValue digits)
      else none
    else none

/-- The decimal that a text denotes: digits with an optional point, at least one digit on one side
of it, and an optional exponent. -/
def Decimal.read? (text : List Char) : Option Decimal :=
  let whole := text.takeWhile Char.isDigit
  let rest := text.dropWhile Char.isDigit
  let (fraction, rest) :=
    match rest with
    | '.' :: rest => (rest.takeWhile Char.isDigit, rest.dropWhile Char.isDigit)
    | _ => ([], rest)
  if whole = [] && fraction = [] then none
  else
    (readExponent? rest).map fun exponent =>
      ⟨digitsValue (whole ++ fraction), exponent - fraction.length⟩

/-- The value of a format nearest to a decimal. A number of more than 400 places before the point is
above all values of either format, and one that starts more than 400 places behind it below them. -/
def Format.ofDecimal (f : Format) (negative : Bool) (d : Decimal) : Floating :=
  let places : Int := digitCount d.digits + d.exponent
  if d.digits = 0 || places < -400 then f.zero negative
  else if 400 < places then .infinite negative
  else
    let (num, den) := shiftDown d.digits 1 (-d.exponent)
    f.round negative num den

/-- The value of a format that a text denotes: an optional sign and a decimal, or one of the words
`nan`, `inf` and `infinity` in letters of either case. -/
def Format.read? (f : Format) (text : String) : Option Floating :=
  let (negative, body) := readSign text.toList
  match String.ofList (body.map Char.toLower) with
  | "nan" => some .nan
  | "inf" => some (.infinite negative)
  | "infinity" => some (.infinite negative)
  | _ => (Decimal.read? body).map (f.ofDecimal negative)

end Sprout.Floating
