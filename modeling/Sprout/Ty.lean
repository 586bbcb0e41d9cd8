import Sprout.Primitive

namespace Sprout

/-- The type of a value: a primitive type, an array, the results of a call that returns several
values, or the type of `null`. An `array` of known size is fixed, one without is a vector;
`i32[2][3]` is an array of two `i32[3]`. -/
inductive Ty
  | primitive (name : Primitive)
  | array (element : Ty) (size : Option Nat)
  | tuple (items : List Ty)
  | null
deriving Repr

namespace Ty

mutual
/-- Equality of types can be decided. -/
def decEq : (s t : Ty) → Decidable (s = t)
  | primitive p, primitive q => if h : p = q then .isTrue (by rw [h]) else .isFalse (by simp [h])
  | primitive _, array _ _ | primitive _, tuple _ | primitive _, null => .isFalse (by simp)
  | array s m, array t n =>
    match decEq s t with
    | .isTrue h => if k : m = n then .isTrue (by rw [h, k]) else .isFalse (by simp [k])
    | .isFalse h => .isFalse (by simp [h])
  | array _ _, primitive _ | array _ _, tuple _ | array _ _, null => .isFalse (by simp)
  | tuple ss, tuple ts =>
    match decEqAll ss ts with
    | .isTrue h => .isTrue (by rw [h])
    | .isFalse h => .isFalse (by simp [h])
  | tuple _, primitive _ | tuple _, array _ _ | tuple _, null => .isFalse (by simp)
  | null, null => .isTrue rfl
  | null, primitive _ | null, array _ _ | null, tuple _ => .isFalse (by simp)
/-- Equality of lists of types can be decided. -/
def decEqAll : (ss ts : List Ty) → Decidable (ss = ts)
  | [], [] => .isTrue rfl
  | [], _ :: _ => .isFalse (by simp)
  | _ :: _, [] => .isFalse (by simp)
  | s :: ss, t :: ts =>
    match decEq s t with
    | .isTrue h =>
      match decEqAll ss ts with
      | .isTrue k => .isTrue (by rw [h, k])
      | .isFalse k => .isFalse (by simp [k])
    | .isFalse h => .isFalse (by simp [h])
end

instance : DecidableEq Ty := decEq

/-- The type of no value. -/
abbrev void : Ty := primitive .void

/-- The type of truth values. -/
abbrev bool : Ty := primitive .bool

/-- The type of strings. -/
abbrev str : Ty := primitive .str

/-- The type of characters. -/
abbrev char : Ty := primitive .char

/-- Signed integers of 64 bits. -/
abbrev i64 : Ty := primitive .i64

/-- Unsigned integers of 64 bits. -/
abbrev u64 : Ty := primitive .u64

/-- Double-precision numbers. -/
abbrev f64 : Ty := primitive .f64

/-- The primitive type that a type is, if it is one. -/
def primitive? : Ty → Option Primitive
  | primitive p => some p
  | _ => none

/-- Whether the values are numbers. -/
def isNumeric : Ty → Bool
  | primitive p => p.isNumeric
  | _ => false

/-- Whether the values are whole numbers. -/
def isInteger : Ty → Bool
  | primitive p => p.isInteger
  | _ => false

/-- Whether the values are floating-point numbers. -/
def isFloating : Ty → Bool
  | primitive p => p.isFloating
  | _ => false

/-- Whether there are no values. -/
def isVoid : Ty → Bool
  | primitive .void => true
  | _ => false

/-- Whether the type is an array of fixed size. -/
def isFixed : Ty → Bool
  | array _ (some _) => true
  | _ => false

/-- Whether the type is a vector. -/
def isVector : Ty → Bool
  | array _ none => true
  | _ => false

/-- The type of the elements of an array or vector. -/
def element? : Ty → Option Ty
  | array element _ => some element
  | _ => none

/-- One dimension as it is written behind a type. -/
def dimension : Option Nat → String
  | none => "[]"
  | some size => "[" ++ toString size ++ "]"

mutual
/-- The written form with `dimensions` behind it. -/
def renderWith (dimensions : String) : Ty → String
  | primitive p => p.name ++ dimensions
  | array element size => renderWith (dimensions ++ dimension size) element
  | tuple items => " ".intercalate (renderAll items) ++ dimensions
  | null => "null" ++ dimensions
/-- The written forms of several types. -/
def renderAll : List Ty → List String
  | [] => []
  | item :: items => renderWith "" item :: renderAll items
end

/-- The written form: a primitive type with its dimensions, the outermost first. -/
def render (t : Ty) : String :=
  renderWith "" t

mutual
/-- The type in the generated text. -/
def target : Ty → String
  | primitive p => p.target
  | array element (some size) => "rt::array<" ++ target element ++ ", " ++ toString size ++ ">"
  | array element none => "rt::vector<" ++ target element ++ ">"
  | tuple items => "std::tuple<" ++ ", ".intercalate (targetAll items) ++ ">"
  | null => "std::nullptr_t"
/-- Several types in the generated text. -/
def targetAll : List Ty → List String
  | [] => []
  | item :: items => target item :: targetAll items
end

end Ty

/-- How a value of one type fits into a place of another. -/
inductive Assignability
  /-- The types are the same. -/
  | exact
  /-- Every value keeps its meaning. -/
  | widening
  /-- Allowed, but a value may lose information. -/
  | narrowing
  /-- Not allowed. -/
  | incompatible
deriving DecidableEq, Repr

namespace Assignability

/-- Whether the value may be stored at all. -/
def isAllowed (a : Assignability) : Bool :=
  a ≠ incompatible

/-- Whether storing may lose information. -/
def losesPrecision (a : Assignability) : Bool :=
  a = narrowing

end Assignability

/-- Whether every value of the numeric type `source` is a value of the numeric type `target`. A
floating type holds the integers of half its width. -/
def Primitive.widens (target source : Primitive) : Bool :=
  match target.isFloating, source.isFloating with
  | true, true => source.bits ≤ target.bits
  | true, false => source.bits ≤ target.bits / 2
  | false, true => false
  | false, false =>
    if target.isSigned = source.isSigned then source.bits ≤ target.bits
    else target.isSigned && source.bits < target.bits

/-- Whether a value of one type may be stored in a place of another, and whether that can lose
information. Arrays fit element by element, and numbers by their widths and signs. -/
def Ty.assign (target source : Ty) : Assignability :=
  if target = source then .exact
  else
    match target, source with
    | .primitive t, .primitive s =>
      if t.isNumeric && s.isNumeric then if t.widens s then .widening else .narrowing
      else .incompatible
    | .array t m, .array s n => if t = s && (m = none || m = n) then .widening else .incompatible
    | _, _ => .incompatible

/-- The same type always fits exactly, and nothing else does. -/
theorem Ty.assign_eq_exact_iff {target source : Ty} :
    target.assign source = .exact ↔ target = source := by
  constructor
  · intro h
    by_cases hsame : target = source
    · exact hsame
    · unfold Ty.assign at h
      rw [if_neg hsame] at h
      split at h <;> (repeat' split at h) <;> simp at h
  · intro h
    simp [Ty.assign, h]

end Sprout
