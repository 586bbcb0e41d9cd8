import Sprout.Token

namespace Sprout

/-- What a statement does, as far as its tokens tell. -/
inductive Statement.Kind
  /-- The word that opens the program. -/
  | main
  /-- A `var` or `const` without an initializer. -/
  | declaration
  /-- A `var` or `const` with an initializer. -/
  | initialization
  /-- Expressions evaluated for their effect. -/
  | operation
  /-- An assignment, plain or compound. -/
  | assignment
  /-- The header of an `if` or a `while`, or the first clause of a `for`. -/
  | header
  /-- An `else`, with or without a condition. -/
  | alternative
  /-- The second clause of a `for` header. -/
  | bound
  /-- The third clause of a `for` header. -/
  | step
  /-- A `break` or a `continue`. -/
  | jump
  /-- A `return`. -/
  | result
  /-- An opening brace. -/
  | opening
  /-- A closing brace. -/
  | closing
deriving DecidableEq, Repr

/-- The name of a kind of statement in a list of statements. -/
def Statement.Kind.label : Statement.Kind → String
  | main => "Main"
  | declaration => "Declaration"
  | initialization => "Initialization"
  | operation => "Operation"
  | assignment => "Assignation"
  | header => "Structure"
  | alternative => "Else"
  | bound => "ForCondition"
  | step => "ForStep"
  | jump => "Break"
  | result => "Return"
  | opening => "OpenScope"
  | closing => "CloseScope"

/-- A statement: its kind, its first token and the tokens behind that. There is always a first one,
so every statement has a place. -/
structure Statement where
  kind : Statement.Kind
  lead : Token
  rest : List Token
deriving DecidableEq, Repr

namespace Statement

/-- All tokens of a statement. -/
def tokens (s : Statement) : List Token :=
  s.lead :: s.rest

/-- Where a statement starts. -/
def position (s : Statement) : Position :=
  s.lead.position

/-- The last token of a statement. -/
def last (s : Statement) : Token :=
  s.rest.getLast?.getD s.lead

/-- The tokens of a statement with single spaces between them. -/
def text (s : Statement) : String :=
  " ".intercalate (s.tokens.map Token.lexeme)

/-- A statement in a list of statements. -/
def render (s : Statement) : String :=
  s.kind.label ++ " `" ++ s.text ++ "`"

/-- The runs of tokens between the commas behind the first equal sign of a run. -/
def initializers (run : List Token) : List (List Token) :=
  match Token.splitTop (· = .equal) 0 run with
  | none => []
  | some (_, _, after) => Token.splitCommas after

/-- The runs of tokens in a statement that hold its expressions, in order. -/
def runs (s : Statement) : List (List Token) :=
  match s.kind with
  | .operation | .bound | .step => Token.splitCommas s.tokens
  | .result => Token.splitCommas s.rest
  | .alternative => Token.splitCommas (s.rest.drop 1)
  | .header =>
    if s.lead.kind = .keyword .forWord then initializers s.tokens else Token.splitCommas s.rest
  | .initialization => initializers s.tokens
  | .assignment =>
    match Token.splitTop Token.Kind.isAssignment 0 s.tokens with
    | none => []
    | some (before, _, after) => Token.splitCommas before ++ Token.splitCommas after
  | _ => []

end Statement

end Sprout
