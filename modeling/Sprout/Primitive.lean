namespace Sprout

/-- A type that has a name in Sprout: integers of several widths, two floating-point types, truth
values, characters, strings, and the type of no value. -/
inductive Primitive
  | i8
  | i16
  | i32
  | i64
  | u8
  | u16
  | u32
  | u64
  | usize
  | f32
  | f64
  | bool
  | char
  | str
  | void
deriving DecidableEq, Repr

namespace Primitive

/-- All primitive types, in the order in which names are looked up. -/
def all : List Primitive :=
  [i8, i16, i32, i64, u8, u16, u32, u64, usize, f32, f64, bool, char, str, void]

/-- The name in a Sprout text. -/
def name : Primitive → String
  | i8 => "i8"
  | i16 => "i16"
  | i32 => "i32"
  | i64 => "i64"
  | u8 => "u8"
  | u16 => "u16"
  | u32 => "u32"
  | u64 => "u64"
  | usize => "usize"
  | f32 => "f32"
  | f64 => "f64"
  | bool => "bool"
  | char => "char"
  | str => "str"
  | void => "void"

/-- The name capitalised, as token kinds show it. -/
def label : Primitive → String
  | i8 => "I8"
  | i16 => "I16"
  | i32 => "I32"
  | i64 => "I64"
  | u8 => "U8"
  | u16 => "U16"
  | u32 => "U32"
  | u64 => "U64"
  | usize => "Usize"
  | f32 => "F32"
  | f64 => "F64"
  | bool => "Bool"
  | char => "Char"
  | str => "Str"
  | void => "Void"

/-- The type in the generated text. -/
def target : Primitive → String
  | i8 => "int8_t"
  | i16 => "int16_t"
  | i32 => "int32_t"
  | i64 => "int64_t"
  | u8 => "uint8_t"
  | u16 => "uint16_t"
  | u32 => "uint32_t"
  | u64 => "uint64_t"
  | usize => "std::size_t"
  | f32 => "float"
  | f64 => "double"
  | bool => "bool"
  | char => "char"
  | str => "std::string"
  | void => "void"

/-- The primitive type of a given name. -/
def ofName? (text : String) : Option Primitive :=
  all.find? (·.name = text)

/-- Whether the values are whole numbers. -/
def isInteger : Primitive → Bool
  | i8 | i16 | i32 | i64 | u8 | u16 | u32 | u64 | usize => true
  | _ => false

/-- Whether the values are floating-point numbers. -/
def isFloating : Primitive → Bool
  | f32 | f64 => true
  | _ => false

/-- Whether the values are numbers. -/
def isNumeric (p : Primitive) : Bool :=
  p.isInteger || p.isFloating

/-- Whether the values may be negative numbers. -/
def isSigned : Primitive → Bool
  | i8 | i16 | i32 | i64 | f32 | f64 => true
  | _ => false

/-- The width in bits; zero for types that hold no numbers. -/
def bits : Primitive → Nat
  | i8 | u8 => 8
  | i16 | u16 => 16
  | i32 | u32 | f32 => 32
  | i64 | u64 | usize | f64 => 64
  | bool | char | str | void => 0

/-- The least and the greatest value of an integer type. -/
def integerRange (p : Primitive) : Option (Int × Int) :=
  if p.isInteger then
    if p.isSigned then some (-Int.pow 2 (p.bits - 1), Int.pow 2 (p.bits - 1) - 1)
    else some (0, Int.pow 2 p.bits - 1)
  else none

/-- Whether `value` is a value of the integer type `p`. -/
def holdsInteger (p : Primitive) (value : Int) : Bool :=
  match p.integerRange with
  | none => false
  | some (least, greatest) => least ≤ value && value ≤ greatest

/-- The integer type of a given width and signedness. -/
def integerOf (bits : Nat) (signed : Bool) : Primitive :=
  match bits, signed with
  | 8, true => i8
  | 16, true => i16
  | 32, true => i32
  | 8, false => u8
  | 16, false => u16
  | 32, false => u32
  | _, true => i64
  | _, false => u64

/-- The result type of arithmetic on two numbers. A floating type wins over an integer type and the
wider of two floating types over the narrower; of two integer types the wider wins, and at equal
width the result is unsigned if one of them is. -/
def common (left right : Primitive) : Option Primitive :=
  if !left.isNumeric || !right.isNumeric then none
  else if left.isFloating && right.isFloating then
    some (if left.bits ≥ right.bits then left else right)
  else if left.isFloating then some left
  else if right.isFloating then some right
  else
    let bits := max left.bits right.bits
    let signed :=
      if left.bits = right.bits then left.isSigned && right.isSigned
      else if left.bits > right.bits then left.isSigned
      else right.isSigned
    if (left = usize || right = usize) && bits = 64 && !signed then some usize
    else some (integerOf bits signed)

/-- Names and primitive types determine each other. -/
theorem ofName?_name (p : Primitive) : ofName? p.name = some p := by
  cases p <;> decide

end Primitive

end Sprout
