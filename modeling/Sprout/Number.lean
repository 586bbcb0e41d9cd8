import Sprout.Floating.Decimal
import Sprout.Token

namespace Sprout

/-- A numeric literal. It has a type of its own: integers take the narrowest of `i32`, `i64` and
`u64`, and the other two are floating-point values of single and double precision. -/
inductive Number
  | integer (type : Primitive) (value : Int)
  | single (value : Floating)
  | double (value : Floating)
deriving DecidableEq, Repr

namespace Number

/-- The type of a literal. -/
def type : Number → Primitive
  | integer type _ => type
  | single _ => .f32
  | double _ => .f64

/-- The literal in the text of a tree. -/
def render : Number → String
  | integer _ value => toString value
  | single value => Floating.Format.single.write value ++ "f"
  | double value => Floating.Format.double.write value

/-- The literal in the generated text; unsigned types of 32 bits and more have a suffix. -/
def target : Number → String
  | integer .u32 value => toString value ++ "U"
  | integer .u64 value => toString value ++ "ULL"
  | integer .usize value => toString value ++ "ULL"
  | other => other.render

/-- The integer literal of a value: the narrowest of `i32`, `i64` and `u64` that holds it. -/
def ofNat (value : Nat) : Number :=
  if Primitive.i32.holdsInteger value then integer .i32 value
  else if Primitive.i64.holdsInteger value then integer .i64 value
  else integer .u64 value

/-- The value of a digit, letters of either case counting on from ten. -/
def digitValue? (c : Char) : Option Nat :=
  if c.isDigit then some (c.toNat - '0'.toNat)
  else if 'a' ≤ c && c ≤ 'f' then some (c.toNat - 'a'.toNat + 10)
  else if 'A' ≤ c && c ≤ 'F' then some (c.toNat - 'A'.toNat + 10)
  else none

/-- The value of `digits`, read behind digits of value `value`; nothing if one is not a digit of the
base. -/
def foldDigits (base : Nat) (value : Nat) : List Char → Option Nat
  | [] => some value
  | c :: digits =>
    match digitValue? c with
    | none => none
    | some digit => if digit < base then foldDigits base (base * value + digit) digits else none

/-- The number of at most 64 bits that a text denotes in a base; a plus sign may stand in front. -/
def readNat? (base : Nat) (text : List Char) : Option Nat :=
  let digits := if text.head? = some '+' then text.drop 1 else text
  if digits = [] then none
  else (foldDigits base 0 digits).filter fun value => Primitive.u64.holdsInteger value

/-- The value of an integer lexeme: octal behind `#o`, hexadecimal behind `#`, and decimal
otherwise. A malformed or too large one counts as zero. -/
def integerValue (lexeme : List Char) : Nat :=
  (match lexeme with
    | '#' :: 'o' :: digits => readNat? 8 digits
    | '#' :: digits => readNat? 16 digits
    | digits => readNat? 10 digits).getD 0

/-- The value of a floating-point lexeme without its `suffix`, if it has one. A malformed one counts
as zero, and a missing digit before the point is supplied. -/
def floatingValue (format : Floating.Format) (suffix : Char) (lexeme : List Char) : Floating :=
  let digits := if lexeme.getLast? = some suffix then lexeme.dropLast else lexeme
  let text := if digits.head? = some '.' then '0' :: digits else digits
  (format.read? (String.ofList text)).getD (format.zero false)

/-- The literal of a token of a given kind and lexeme. -/
def ofLexeme (kind : Token.Kind) (lexeme : String) : Number :=
  match kind with
  | .single => single (floatingValue .single 'f' lexeme.toList)
  | .double => double (floatingValue .double 'i' lexeme.toList)
  | _ => ofNat (integerValue lexeme.toList)

end Number

end Sprout
