namespace Sprout

/-- Operators that compute a value from two numbers. -/
inductive Arithmetic
  | add
  | sub
  | mul
  | div
  | mod
  | pow
deriving DecidableEq, Repr

/-- Operators that compare two values. -/
inductive Comparison
  | eq
  | ne
  | lt
  | gt
  | le
  | ge
deriving DecidableEq, Repr

/-- Operators that join two truth values. -/
inductive Connective
  | or
  | and
deriving DecidableEq, Repr

/-- An operator between two operands. -/
inductive BinaryOp
  | logical (op : Connective)
  | comparison (op : Comparison)
  | arithmetic (op : Arithmetic)
deriving DecidableEq, Repr

/-- An operator in front of its operand that leaves the operand as it is. -/
inductive UnaryOp
  | plus
  | minus
  | not
deriving DecidableEq, Repr

/-- An operator that moves a variable by one. -/
inductive StepOp
  | increment
  | decrement
deriving DecidableEq, Repr

/-- The symbol of an arithmetic operator. -/
def Arithmetic.symbol : Arithmetic → String
  | .add => "+"
  | .sub => "-"
  | .mul => "*"
  | .div => "/"
  | .mod => "%"
  | .pow => "^"

/-- The symbol of a comparison. -/
def Comparison.symbol : Comparison → String
  | .eq => "=="
  | .ne => "!="
  | .lt => "<"
  | .gt => ">"
  | .le => "<="
  | .ge => ">="

/-- The symbol of a connective. -/
def Connective.symbol : Connective → String
  | .or => "||"
  | .and => "&&"

namespace BinaryOp

/-- The symbol of a binary operator. -/
def symbol : BinaryOp → String
  | .logical op => op.symbol
  | .comparison op => op.symbol
  | .arithmetic op => op.symbol

/-- How tightly an operator binds, from one for the loosest; the generated text orders the operators
the same way. -/
def precedence : BinaryOp → Nat
  | .logical .or => 1
  | .logical .and => 2
  | .comparison .eq | .comparison .ne => 3
  | .comparison _ => 4
  | .arithmetic .add | .arithmetic .sub => 5
  | .arithmetic .mul | .arithmetic .div | .arithmetic .mod => 6
  | .arithmetic .pow => 7

/-- Every binary operator binds at one of the seven levels, so that climbing from the first level
meets all of them. -/
theorem precedence_bounds (op : BinaryOp) : 1 ≤ op.precedence ∧ op.precedence ≤ 7 := by
  rcases op with op | op | op <;> cases op <;> decide

end BinaryOp

/-- How tightly operators in front of their operand bind: above every binary operator. -/
def unaryPrecedence : Nat := 8

/-- The symbol of a unary operator. -/
def UnaryOp.symbol : UnaryOp → String
  | .plus => "+"
  | .minus => "-"
  | .not => "!"

/-- The symbol of a step. -/
def StepOp.symbol : StepOp → String
  | .increment => "++"
  | .decrement => "--"

/-- Whether a comparison holds of two values in the given order. -/
def Comparison.holds : Comparison → Ordering → Bool
  | .eq, o => o == .eq
  | .ne, o => o != .eq
  | .lt, o => o == .lt
  | .gt, o => o == .gt
  | .le, o => o != .gt
  | .ge, o => o != .lt

end Sprout
