import Sprout.Floating.Arithmetic
import Sprout.Operator
import Sprout.Ty

namespace Sprout

/-- A value known at compile time. Whole numbers are computed with in 128 bits, and an operation
whose result does not fit gives up. -/
inductive Constant
  | int (value : Int)
  | float (value : Floating)
  | bool (value : Bool)
  | char (value : Char)
  | str (value : String)
deriving DecidableEq, Repr

namespace Constant

/-- A number as a double-precision value. -/
def toDouble? : Constant → Option Floating
  | int value => some (Floating.Format.double.ofInt value)
  | float value => some value
  | _ => none

/-- The whole number that storing the value in an integer place would give, before the range of the
place is taken into account. -/
def toInteger? : Constant → Option Int
  | int value => some value
  | float value => value.truncate?
  | bool value => some (if value then 1 else 0)
  | char value => some value.toNat
  | str _ => none

/-- The value that a place of type `type` holds after the constant is stored in it; nothing if it
has no such value. -/
def convert (c : Constant) (type : Ty) : Option Constant :=
  match type with
  | .primitive .f32 =>
    c.toDouble?.map fun value =>
      float (Floating.Format.double.recast (Floating.Format.single.recast value))
  | .primitive .f64 => c.toDouble?.map float
  | .primitive .bool =>
    match c with
    | bool value => some (bool value)
    | int value => some (bool (value ≠ 0))
    | _ => none
  | .primitive .char =>
    match c with
    | char value => some (char value)
    | int value => if 0 ≤ value && value < 128 then some (char (Char.ofNat value.toNat)) else none
    | _ => none
  | .primitive .str =>
    match c with
    | str value => some (str value)
    | _ => none
  | .primitive p =>
    match c.toInteger? with
    | none => none
    | some value => if p.holdsInteger value then some (int value) else none
  | _ => none

/-- The least number too large for 128 bits with a sign, the 127th power of two. -/
def limit : Nat := 0x80000000000000000000000000000000

/-- A whole number if it fits into 128 bits with a sign. -/
def fit (value : Int) : Option Int :=
  if -limit ≤ value && value < limit then some value else none

/-- The opposite of a whole number of 128 bits; the least one is its own opposite. -/
def negate (value : Int) : Int :=
  (-value).bmod (2 * limit)

/-- A power of a whole number. The exponent has at most 32 bits and no sign. -/
def power (base exponent : Int) : Option Int :=
  if !Primitive.u32.holdsInteger exponent then none
  else if exponent = 0 || base = 1 then some 1
  else if base = 0 then some 0
  else if base = -1 then some (if exponent % 2 = 0 then 1 else -1)
  else if 128 ≤ exponent then none
  else fit (Int.pow base exponent.toNat)

/-- The result of an arithmetic operator on whole numbers; division rounds toward zero. -/
def foldInt (op : Arithmetic) (a b : Int) : Option Int :=
  match op with
  | .add => fit (a + b)
  | .sub => fit (a - b)
  | .mul => fit (a * b)
  | .div => if b = 0 then none else fit (a.tdiv b)
  | .mod => if b = 0 then none else (fit (a.tdiv b)).map fun _ => a.tmod b
  | .pow => power a b

/-- The result of an arithmetic operator on double-precision values. -/
def foldFloat (op : Arithmetic) (a b : Floating) : Floating :=
  match op with
  | .add => Floating.add .double a b
  | .sub => Floating.sub .double a b
  | .mul => Floating.mul .double a b
  | .div => Floating.div .double a b
  | .mod => Floating.rem .double a b
  | .pow => Floating.pow a b

/-- The result of an operator on two numbers of which at least one is floating. -/
def foldNumbers (op : BinaryOp) (a b : Constant) : Option Constant :=
  match a.toDouble?, b.toDouble? with
  | some x, some y =>
    match op with
    | .arithmetic op => some (float (foldFloat op x y))
    | .comparison op => (Floating.compare? x y).map fun order => bool (op.holds order)
    | .logical _ => none
  | _, _ => none

/-- What an operator makes of two values. -/
def fold (op : BinaryOp) (a b : Constant) : Option Constant :=
  match a, b with
  | int x, int y =>
    match op with
    | .arithmetic op => (foldInt op x y).map int
    | .comparison op => some (bool (op.holds (compare x y)))
    | .logical _ => none
  | bool x, bool y =>
    match op with
    | .logical .and => some (bool (x && y))
    | .logical .or => some (bool (x || y))
    | .comparison op => some (bool (op.holds (compare x.toNat y.toNat)))
    | .arithmetic _ => none
  | str x, str y =>
    match op with
    | .arithmetic .add => some (str (x ++ y))
    | .comparison op => some (bool (op.holds (compare x y)))
    | _ => none
  | str x, char y =>
    match op with
    | .arithmetic .add => some (str (x.push y))
    | _ => none
  | char x, char y =>
    match op with
    | .comparison op => some (bool (op.holds (compare x.toNat y.toNat)))
    | _ => none
  | a, b => foldNumbers op a b

end Constant

end Sprout
