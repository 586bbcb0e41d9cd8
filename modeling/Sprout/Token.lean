import Sprout.Operator
import Sprout.Primitive
import Sprout.Source

namespace Sprout

/-- The reserved words of Sprout other than type names and truth values. -/
inductive Keyword
  | main
  | var
  | const
  | ifWord
  | elseWord
  | whileWord
  | forWord
  | breakWord
  | continueWord
  | returnWord
  | null
deriving DecidableEq, Repr

namespace Keyword

/-- All keywords. -/
def all : List Keyword :=
  [main, var, const, ifWord, elseWord, whileWord, forWord, breakWord, continueWord, returnWord,
    null]

/-- How a keyword is written. -/
def word : Keyword → String
  | main => "main"
  | var => "var"
  | const => "const"
  | ifWord => "if"
  | elseWord => "else"
  | whileWord => "while"
  | forWord => "for"
  | breakWord => "break"
  | continueWord => "continue"
  | returnWord => "return"
  | null => "null"

/-- The name a keyword has in a list of tokens. -/
def label : Keyword → String
  | main => "Main"
  | var => "Var"
  | const => "Const"
  | ifWord => "If"
  | elseWord => "Else"
  | whileWord => "While"
  | forWord => "For"
  | breakWord => "Break"
  | continueWord => "Continue"
  | returnWord => "Return"
  | null => "Null"

/-- The keyword written as `text`. -/
def ofWord? (text : String) : Option Keyword :=
  all.find? (·.word = text)

end Keyword

/-- What a token is. An `unknown` token is a string, character or block comment whose end is
missing; it runs to the end of the text. -/
inductive Token.Kind
  | eof
  | unknown
  | comment
  | identifier
  | integer
  | single
  | double
  | bool
  | char
  | string
  | type (name : Primitive)
  | keyword (word : Keyword)
  | operator (op : BinaryOp)
  | compound (op : Arithmetic)
  | bang
  | step (op : StepOp)
  | equal
  | dot
  | openParen
  | closeParen
  | openBracket
  | closeBracket
  | openBrace
  | closeBrace
  | comma
  | colon
  | semicolon
deriving DecidableEq, Repr

namespace Token.Kind

/-- The name of an arithmetic symbol in a list of tokens. -/
def arithmeticLabel : Arithmetic → String
  | .add => "Plus"
  | .sub => "Minus"
  | .mul => "Star"
  | .div => "Slash"
  | .mod => "Percent"
  | .pow => "Caret"

/-- The name of a binary operator in a list of tokens. -/
def operatorLabel : BinaryOp → String
  | .logical .or => "OrOr"
  | .logical .and => "AndAnd"
  | .comparison .eq => "EqualEqual"
  | .comparison .ne => "BangEqual"
  | .comparison .lt => "Less"
  | .comparison .gt => "Greater"
  | .comparison .le => "LessEqual"
  | .comparison .ge => "GreaterEqual"
  | .arithmetic op => arithmeticLabel op

/-- The name of a kind in a list of tokens. -/
def label : Token.Kind → String
  | eof => "Eof"
  | unknown => "Unknown"
  | comment => "Comment"
  | identifier => "Identifier"
  | integer => "Integer"
  | single => "Float"
  | double => "Double"
  | bool => "Bool"
  | char => "Char"
  | string => "String"
  | type name => "Type(" ++ name.label ++ ")"
  | keyword word => word.label
  | operator op => operatorLabel op
  | compound op => arithmeticLabel op ++ "Equal"
  | bang => "Bang"
  | step .increment => "PlusPlus"
  | step .decrement => "MinusMinus"
  | equal => "Equal"
  | dot => "Dot"
  | openParen => "LParen"
  | closeParen => "RParen"
  | openBracket => "LBracket"
  | closeBracket => "RBracket"
  | openBrace => "LBrace"
  | closeBrace => "RBrace"
  | comma => "Comma"
  | colon => "Colon"
  | semicolon => "Semi"

/-- Whether the token assigns after computing, as `+=` does. -/
def isCompound : Token.Kind → Bool
  | compound _ => true
  | _ => false

/-- Whether the token can stand between two operands. -/
def isOperator : Token.Kind → Bool
  | operator _ => true
  | _ => false

/-- Whether the token assigns: `=` or one of the compound forms. -/
def isAssignment : Token.Kind → Bool
  | equal | compound _ => true
  | _ => false

/-- Whether the token is a keyword that starts a new statement. -/
def startsStatement : Token.Kind → Bool
  | keyword .null => false
  | keyword _ => true
  | _ => false

/-- Whether a statement that ends a line with this token always goes on in the next line. -/
def continues : Token.Kind → Bool
  | operator _ | compound _ => true
  | comma | equal | colon | bang | openParen | openBracket | dot => true
  | _ => false

/-- Whether the token opens a round or square bracket. -/
def isOpening : Token.Kind → Bool
  | openParen | openBracket => true
  | _ => false

/-- Whether the token closes a round or square bracket. -/
def isClosing : Token.Kind → Bool
  | closeParen | closeBracket => true
  | _ => false

/-- The bracket depth after the token, when it is `depth` before it. A closing bracket without an
opening one leaves the depth at zero. -/
def depthAfter (depth : Nat) (kind : Token.Kind) : Nat :=
  if kind.isOpening then depth + 1 else if kind.isClosing then depth - 1 else depth

end Token.Kind

/-- A stretch of the text together with its kind and the position of its first character. -/
structure Token where
  kind : Token.Kind
  lexeme : String
  position : Position
deriving DecidableEq, Repr

namespace Token

/-- The number of columns a token takes when it is shown; the end of the text takes one. -/
def width (t : Token) : Nat :=
  max t.lexeme.length 1

/-- Whether the token takes part in a program: comments and the end of the text do not. -/
def isSignificant (t : Token) : Bool :=
  t.kind ≠ .comment && t.kind ≠ .eof

/-- A defect that the whole of a token shows. -/
def defect {κ : Type} (t : Token) (cause : κ) : Defect κ :=
  ⟨cause, t.position, t.width⟩

/-- A cause blamed on the start of a token. -/
def blame {κ : Type} (t : Token) (cause : κ) : Located κ :=
  .placed cause t.position

/-- Cuts a run at its first token outside any brackets whose kind satisfies `p`: the tokens before
it, the token, and the tokens after it. -/
def splitTop (p : Kind → Bool) (depth : Nat) : List Token → Option (List Token × Token × List Token)
  | [] => none
  | t :: rest =>
    if !t.kind.isOpening && !t.kind.isClosing && depth = 0 && p t.kind then some ([], t, rest)
    else
      (splitTop p (t.kind.depthAfter depth) rest).map fun (before, mid, after) =>
        (t :: before, mid, after)

/-- The pieces of a run between its commas outside any brackets. An empty run has none, and nothing
stands after a last comma. -/
def pieces (depth : Nat) : List Token → List (List Token)
  | [] => []
  | t :: rest =>
    if t.kind = .comma && depth = 0 then [] :: pieces 0 rest
    else
      match pieces (t.kind.depthAfter depth) rest with
      | [] => [[t]]
      | piece :: others => (t :: piece) :: others

/-- The pieces of a run between its top-level commas. -/
def splitCommas (run : List Token) : List (List Token) :=
  pieces 0 run

end Token

end Sprout
