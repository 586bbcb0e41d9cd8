import Sprout.Token

namespace Sprout

/-- A part of a statement that must not be left out. -/
inductive Part
  | type
  | initializer
  | target
  | value
  | condition
  | loopVariable
  | initialValue
deriving DecidableEq, Repr

/-- A part with the side on which it stands. -/
def Part.phrase : Part → String
  | type => "a type after"
  | initializer => "an initializer after"
  | target => "an assignment target before"
  | value => "a value after"
  | condition => "a condition after"
  | loopVariable => "a loop variable after"
  | initialValue => "an initial value after"

/-- Why a run of tokens cannot be read. Only the order of the tokens counts here, before any meaning
is asked for. -/
inductive Malformed
  | unterminatedComment
  | unterminatedString
  | unterminatedCharacter
  | unrecognized
  | missingForSeparator
  | extraForClause
  | emptyForClause
  | missingPart (part : Part) (lexeme : String)
  | tooDeep
  | endOfExpression
  | noExpression
  | notAnExpression (lexeme : String)
  | trailing (lexeme : String)
  | unclosedParenthesis
  | unclosedArray
  | unclosedArguments
  | unclosedIndex
  | missingIndex
  | missingMember
  | characterLiteral
  | unknownType (lexeme : String)
deriving DecidableEq, Repr

namespace Malformed

/-- The wording of a cause. -/
def message : Malformed → String
  | unterminatedComment => "unterminated block comment"
  | unterminatedString => "unterminated string literal"
  | unterminatedCharacter => "unterminated character literal"
  | unrecognized => "unrecognized token"
  | missingForSeparator => "expected ';' after the for initializer"
  | extraForClause => "too many clauses in for header"
  | emptyForClause => "empty clause in for header"
  | missingPart part lexeme => "expected " ++ part.phrase ++ " '" ++ lexeme ++ "'"
  | tooDeep => "expression nested too deeply"
  | endOfExpression => "unexpected end of expression"
  | noExpression => "expected an expression"
  | notAnExpression lexeme => "expected an expression, found '" ++ lexeme ++ "'"
  | trailing lexeme => "unexpected '" ++ lexeme ++ "' after expression"
  | unclosedParenthesis => "unclosed parenthesis"
  | unclosedArray => "unclosed array literal"
  | unclosedArguments => "expected ')' to close the argument list"
  | unclosedIndex => "expected ']'"
  | missingIndex => "missing index expression"
  | missingMember => "expected a member name after '.'"
  | characterLiteral => "invalid character literal"
  | unknownType lexeme => "unknown type '" ++ lexeme ++ "'"

/-- What an unknown token lacks, by the characters it starts with. -/
def ofUnknown (lexeme : String) : Malformed :=
  match lexeme.toList with
  | '/' :: '*' :: _ => unterminatedComment
  | '"' :: _ => unterminatedString
  | '\'' :: _ => unterminatedCharacter
  | _ => unrecognized

end Malformed

end Sprout
