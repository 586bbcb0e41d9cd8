import Sprout.Diagnostic
import Sprout.Operator
import Sprout.Ty

namespace Sprout

/-- A call as the types of its receiver and arguments describe it. -/
structure Signature where
  receiver : Option Ty
  name : String
  args : List Ty
deriving DecidableEq, Repr

/-- The written form of a call. -/
def Signature.render (s : Signature) : String :=
  let call := s.name ++ "(" ++ ", ".intercalate (s.args.map Ty.render) ++ ")"
  match s.receiver with
  | none => call
  | some type => type.render ++ "." ++ call

/-- Whether a list has more or fewer members than are wanted. -/
inductive Quantity
  | many
  | few
deriving DecidableEq, Repr

/-- The word for a quantity. -/
def Quantity.word : Quantity → String
  | many => "many"
  | few => "few"

/-- How `found` members compare to `wanted` ones, when the numbers differ. -/
def Quantity.of (found wanted : Nat) : Quantity :=
  if wanted < found then many else few

/-- The clauses of a `for` header behind the first one. -/
inductive Clause
  | bound
  | step
deriving DecidableEq, Repr

/-- The word for a clause. -/
def Clause.word : Clause → String
  | bound => "bound"
  | step => "step"

/-- What is wrong with a statement. -/
inductive Fault
  -- Scopes
  | unmatchedBrace
  | alreadyDeclared (name : String)
  -- Calls and conversions
  | noOverload (call : Signature)
  | unknownMethod (call : Signature)
  | unknownFunction (call : Signature)
  | conversionArity (call : Signature)
  | unconvertible (call : Signature)
  | unconvertibleString (call : Signature)
  | conversionToVoid
  -- Values
  | nullValue
  | arrayValue
  | arrayConversion
  | typeValue (name : Primitive)
  | numberRange
  | characterRange
  | unknownIdentifier (name : String)
  | notAnIndex (type : Ty)
  | notIndexable (type : Ty)
  | outOfBounds (index : Int) (type : Ty)
  | noMember (type : Ty) (name : String)
  | elementArity
  | operand (symbol : String) (type : Ty)
  | operands (symbol : String) (left right : Ty)
  | stepOperand (op : StepOp)
  | divisionByZero
  | constantModified (name : String)
  | readOnlyModified (name : String)
  -- Types and initializers
  | incompatible (source target : Ty)
  | notAType
  | voidType
  | sizeNotPositive
  | sizeNotConstant
  | nullType
  | emptyArrayType
  | mixedElements (first other : Ty)
  | elementCount (type : Ty) (expected found : Nat)
  | arrayTarget (type : Ty)
  -- Declarations
  | nameExpected
  | nameExpectedAfter (keyword : String)
  | constantUninitialized (name : String)
  | typeMissing (name : String)
  | multiReturnConstant
  | initializerCount (quantity : Quantity)
  | initializerNotConstant (name : String)
  | initializerShadowed (name : String)
  | voidInitializer (name : String)
  | multiReturnInitializer (name : String)
  | returnCount (returned targets : Nat)
  -- Assignments and operations
  | unusedValue
  | assignmentExpected
  | invalidTarget
  | valueCount (quantity : Quantity)
  | swapTypes (left right : String) (leftType rightType : Ty)
  -- Blocks
  | braceExpected
  | braceMissing
  | outsideMain
  | unexpectedAfter (lexeme place : String)
  | mainNotGlobal
  | duplicateMain
  | elseWithoutIf
  | condition (type : Ty)
  | loopWithoutStart
  | loopNameExpected
  | unexpectedInHeader (lexeme : String)
  | loopVariable (type : Ty)
  | loopVariableNotPlain
  | boundMissing
  | clauseType (clause : Clause) (type : Ty)
  | zeroStep
  | unexpectedClause (clause : Clause)
  | clauseShadowed (clause : Clause) (name : String)
  | jumpOutsideLoop (keyword : String)
  | returnOutsideMain
  | returnType (type : Ty)
  -- Warnings
  | denied (warning : String)
deriving DecidableEq, Repr

namespace Fault

/-- The wording of a fault. -/
def message : Fault → String
  | unmatchedBrace => "unexpected '\x7d'"
  | alreadyDeclared name => "'" ++ name ++ "' is already declared in this scope"
  | noOverload call => "no builtin matches the call '" ++ call.render ++ "'"
  | unknownMethod call => "unknown method '" ++ call.render ++ "'"
  | unknownFunction call => "unknown function '" ++ call.render ++ "'"
  | conversionArity call => "conversion '" ++ call.render ++ "' takes exactly one argument"
  | unconvertible call => "cannot convert in '" ++ call.render ++ "'"
  | unconvertibleString call => "cannot convert str in '" ++ call.render ++ "'"
  | conversionToVoid => "cannot convert to void"
  | nullValue => "null is only allowed as a whole initializer"
  | arrayValue => "array literals are only allowed as initializers"
  | arrayConversion => "array types cannot be constructed"
  | typeValue name => "type '" ++ name.name ++ "' used as a value"
  | numberRange => "floating-point literal is out of range"
  | characterRange => "character literal does not fit in a char"
  | unknownIdentifier name => "unknown identifier '" ++ name ++ "'"
  | notAnIndex type => "array index must be an integer, found '" ++ type.render ++ "'"
  | notIndexable type => "cannot index a value of type '" ++ type.render ++ "'"
  | outOfBounds index type =>
    "index " ++ toString index ++ " is out of bounds for '" ++ type.render ++ "'"
  | noMember type name => "'" ++ type.render ++ "' has no member '" ++ name ++ "'"
  | elementArity => "'at' takes exactly one index"
  | operand symbol type =>
    "operator '" ++ symbol ++ "' cannot be applied to '" ++ type.render ++ "'"
  | operands symbol left right =>
    "operator '" ++ symbol ++ "' cannot be applied to '" ++ left.render ++ "' and '" ++
      right.render ++ "'"
  | stepOperand op => "operator '" ++ op.symbol ++ "' needs a variable"
  | divisionByZero => "division by zero"
  | constantModified name => "cannot modify constant '" ++ name ++ "'"
  | readOnlyModified name => "cannot modify read-only variable '" ++ name ++ "'"
  | incompatible source target =>
    "cannot assign a value of type '" ++ source.render ++ "' to '" ++ target.render ++ "'"
  | notAType => "expected a type"
  | voidType => "values cannot have type 'void'"
  | sizeNotPositive => "array size must be greater than zero"
  | sizeNotConstant => "array size must be a constant"
  | nullType => "cannot infer a type from null"
  | emptyArrayType => "cannot infer the type of an empty array literal"
  | mixedElements first other =>
    "array literal mixes '" ++ first.render ++ "' and '" ++ other.render ++ "'"
  | elementCount type expected found =>
    "too " ++ (Quantity.of found expected).word ++ " elements for '" ++ type.render ++
      "': expected " ++ toString expected ++ ", found " ++ toString found
  | arrayTarget type => "cannot assign an array literal to '" ++ type.render ++ "'"
  | nameExpected => "expected a variable name"
  | nameExpectedAfter keyword => "expected a variable name after '" ++ keyword ++ "'"
  | constantUninitialized name => "constant '" ++ name ++ "' needs an initializer"
  | typeMissing name => "missing type for '" ++ name ++ "'"
  | multiReturnConstant => "constants cannot be initialized from a multi-return call"
  | initializerCount quantity => "too " ++ quantity.word ++ " initializers"
  | initializerNotConstant name =>
    "initializer of constant '" ++ name ++ "' is not a compile-time constant"
  | initializerShadowed name =>
    "initializer refers to the outer '" ++ name ++ "', which this declaration shadows"
  | voidInitializer name => "cannot initialize '" ++ name ++ "' from a void expression"
  | multiReturnInitializer name => "cannot initialize '" ++ name ++ "' from a multi-return call"
  | returnCount returned targets =>
    "call returns " ++ toString returned ++ " values but " ++ toString targets ++
      " targets were given"
  | unusedValue => "invalid operation: the value is never used"
  | assignmentExpected => "expected an assignment"
  | invalidTarget => "invalid assignment target"
  | valueCount quantity => "too " ++ quantity.word ++ " values in assignment"
  | swapTypes left right leftType rightType =>
    "cannot swap '" ++ left ++ "' and '" ++ right ++ "' of different types '" ++ leftType.render ++
      "' and '" ++ rightType.render ++ "'"
  | braceExpected => "expected '\x7b'"
  | braceMissing => "missing '\x7d' at end of input"
  | outsideMain => "statements must appear inside main"
  | unexpectedAfter lexeme place => "unexpected '" ++ lexeme ++ "' after " ++ place
  | mainNotGlobal => "main must be declared at global scope"
  | duplicateMain => "duplicate main"
  | elseWithoutIf => "'else' must follow the block of an 'if'"
  | condition type => "condition must be 'bool', found '" ++ type.render ++ "'"
  | loopWithoutStart => "for variable needs an initial value"
  | loopNameExpected => "expected a loop variable name"
  | unexpectedInHeader lexeme => "unexpected '" ++ lexeme ++ "' in for header"
  | loopVariable type => "loop variable must be numeric, found '" ++ type.render ++ "'"
  | loopVariableNotPlain => "loop variable must be a plain variable"
  | boundMissing => "for header needs a bound"
  | clauseType clause type =>
    "for " ++ clause.word ++ " must be numeric, found '" ++ type.render ++ "'"
  | zeroStep => "for step cannot be zero"
  | unexpectedClause clause => "unexpected for " ++ clause.word
  | clauseShadowed clause name =>
    "for " ++ clause.word ++ " refers to the outer '" ++ name ++
      "', which the loop variable shadows"
  | jumpOutsideLoop keyword => "cannot use " ++ keyword ++ " outside a loop"
  | returnOutsideMain => "return is only allowed inside main"
  | returnType type => "main must return an integer, found '" ++ type.render ++ "'"
  | denied warning => warning ++ " (warnings are denied)"

/-- The fault, blamed on a place. -/
def blame (fault : Fault) (position : Position) : Located Fault :=
  .placed fault position

end Fault

/-- A fault of a well-formed statement and the place that shows it, where that is known. How each
fault is worded does not depend on the place. -/
abbrev Violation := Located Fault

end Sprout
