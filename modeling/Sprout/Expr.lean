import Sprout.Number
import Sprout.Text.Quoted

namespace Sprout

/-- A literal that is not a number. -/
inductive Literal
  | bool (value : Bool)
  | char (value : Char)
  | str (value : String)
deriving DecidableEq, Repr

/-- An expression. Postfix forms apply to a receiver: `a(1)[2].f(3)` is the method `f` of element 2
of the call `a(1)`. The dimensions of a type name are its brackets from left to right. -/
inductive Expr
  | binary (op : BinaryOp) (left right : Expr) (position : Position)
  | unary (op : UnaryOp) (operand : Expr) (position : Position)
  | stepBefore (op : StepOp) (operand : Expr) (position : Position)
  | stepAfter (op : StepOp) (operand : Expr) (position : Position)
  | ident (name : String) (position : Position)
  | call (name : String) (args : List Expr) (position : Position)
  | index (receiver offset : Expr)
  | field (receiver : Expr) (name : String) (position : Position)
  | method (receiver : Expr) (name : String) (args : List Expr) (position : Position)
  | number (value : Number) (position : Position)
  | literal (value : Literal) (position : Position)
  | null (position : Position)
  | typeName (name : Primitive) (dimensions : List (Option Expr)) (position : Position)
  | convert (name : Primitive) (dimensions : List (Option Expr)) (args : List Expr)
      (position : Position)
  | array (elements : List Expr) (position : Position)
deriving Repr

namespace Expr

/-- Where an expression is reported: at its operator, or else at its first token. -/
def position : Expr → Position
  | binary _ _ _ p | unary _ _ p | stepBefore _ _ p | stepAfter _ _ p => p
  | ident _ p | call _ _ p | number _ p | literal _ p | null p => p
  | typeName _ _ p | convert _ _ _ p | array _ p => p
  | index receiver _ | field receiver _ _ | method receiver _ _ _ => position receiver

/-- The name of an expression that is a name and nothing else. -/
def name? : Expr → Option String
  | ident name _ => some name
  | _ => none

/-- Whether an expression is a call, possibly with indexes and members behind it. -/
def isCallChain : Expr → Bool
  | call .. => true
  | index receiver _ | field receiver _ _ | method receiver _ _ _ => isCallChain receiver
  | _ => false

/-- The written form of a literal. -/
def renderLiteral : Literal → String
  | .bool value => if value then "true" else "false"
  | .char value => Text.quoted '\'' [value]
  | .str value => Text.quoted '"' value.toList

mutual
/-- The written form of a tree: operators in front of their operands, in parentheses, so that `1 + 2
* 3` shows as `(+ 1 (* 2 3))`. -/
def render : Expr → String
  | binary op left right _ => "(" ++ op.symbol ++ " " ++ render left ++ " " ++ render right ++ ")"
  | unary op operand _ => "(" ++ op.symbol ++ " " ++ render operand ++ ")"
  | stepBefore op operand _ => "(" ++ op.symbol ++ " " ++ render operand ++ ")"
  | stepAfter op operand _ => "(post" ++ op.symbol ++ " " ++ render operand ++ ")"
  | ident name _ => name
  | call name args _ => name ++ "(" ++ ", ".intercalate (renderAll args) ++ ")"
  | index receiver offset => render receiver ++ "[" ++ render offset ++ "]"
  | field receiver name _ => render receiver ++ "." ++ name
  | method receiver name args _ =>
    render receiver ++ "." ++ name ++ "(" ++ ", ".intercalate (renderAll args) ++ ")"
  | number value _ => value.render
  | literal value _ => renderLiteral value
  | null _ => "null"
  | typeName name dimensions _ => name.name ++ renderDimensions dimensions
  | convert name dimensions args _ =>
    name.name ++ renderDimensions dimensions ++ "(" ++ ", ".intercalate (renderAll args) ++ ")"
  | array elements _ => "[" ++ ", ".intercalate (renderAll elements) ++ "]"
/-- The written forms of several expressions. -/
def renderAll : List Expr → List String
  | [] => []
  | e :: es => render e :: renderAll es
/-- The brackets behind a type name. -/
def renderDimensions : List (Option Expr) → String
  | [] => ""
  | none :: rest => "[]" ++ renderDimensions rest
  | some size :: rest => "[" ++ render size ++ "]" ++ renderDimensions rest
end

mutual
/-- Whether an expression reads the variable `name` anywhere. -/
def mentions (name : String) : Expr → Bool
  | binary _ left right _ => mentions name left || mentions name right
  | unary _ operand _ | stepBefore _ operand _ | stepAfter _ operand _ => mentions name operand
  | ident own _ => own = name
  | call _ args _ => mentionsAny name args
  | index receiver offset => mentions name receiver || mentions name offset
  | field receiver own _ => mentions name receiver || own = name
  | method receiver _ args _ => mentions name receiver || mentionsAny name args
  | typeName _ dimensions _ => mentionsDimension name dimensions
  | convert _ dimensions args _ => mentionsAny name args || mentionsDimension name dimensions
  | array elements _ => mentionsAny name elements
  | number .. | literal .. | null _ => false
/-- Whether one of several expressions reads the variable `name`. -/
def mentionsAny (name : String) : List Expr → Bool
  | [] => false
  | e :: es => mentions name e || mentionsAny name es
/-- Whether the size of a dimension reads the variable `name`. -/
def mentionsDimension (name : String) : List (Option Expr) → Bool
  | [] => false
  | none :: rest => mentionsDimension name rest
  | some size :: rest => mentions name size || mentionsDimension name rest
end

end Expr

end Sprout
