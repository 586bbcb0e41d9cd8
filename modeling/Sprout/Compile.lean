import Sprout.Emission.Program
import Sprout.Error
import Sprout.Statement.Grouping

namespace Sprout

/-- The result of a compilation. -/
structure Artifact where
  code : String
  diagnostics : List Diagnostic
deriving DecidableEq, Repr

namespace Source

/-- The tokens that take part in a program. -/
def significant (source : Source) : Except CompileError (List Token) :=
  match source.tokens with
  | .error defect => .error (.lexical source defect)
  | .ok tokens => .ok (tokens.filter Token.isSignificant)

/-- The statements of a list of tokens. -/
def statements (source : Source) (tokens : List Token) : Except CompileError (List Statement) :=
  (Statement.group tokens).mapError (.malformed source)

/-- The error that a failure at a statement is reported as. -/
def failure (source : Source) : Failure × Statement → CompileError
  | (.malformed defect, _) => .malformed source defect
  | (.violation violation, s) =>
    .semantic source violation.cause (violation.position.getD s.position) s.text

/-- The emission of a whole program. -/
def emission (source : Source) (deny : Bool) (statements : List Statement) :
    Except CompileError Emission := do
  let e ← (Emission.run deny {} statements).mapError source.failure
  match e.unfinished? with
  | some fault => .error (.semantic source fault (Statement.endPosition statements) "")
  | none => .ok e

/-- Compiles a source. Nothing is produced if any part of it fails. -/
def compile (source : Source) (options : Options) : Except CompileError Artifact := do
  let tokens ← source.significant
  let statements ← source.statements tokens
  let e ← source.emission options.denyWarnings statements
  return {
    code := e.code options
    diagnostics :=
      .summary source.name tokens.length "tokens"
        :: .summary source.name statements.length "instructions"
        :: e.diagnostics }

/-- One line per token: position, kind and lexeme. -/
def tokenDump (source : Source) : Except CompileError String :=
  match source.tokens with
  | .error defect => .error (.lexical source defect)
  | .ok tokens =>
    .ok (String.join (tokens.map fun t =>
      t.position.render ++ "\t" ++ t.kind.label ++ "\t" ++ t.lexeme ++ "\n"))

/-- The trees of the expressions in a statement, in order. -/
def trees (source : Source) (s : Statement) : Except CompileError (List Expr) :=
  (s.runs.mapM Expr.parse).mapError (.malformed source)

/-- One line per statement, followed by the trees of its expressions. -/
def treeDump (source : Source) : Except CompileError String := do
  let tokens ← source.significant
  let statements ← source.statements tokens
  let blocks ← statements.mapM fun s => do
    let trees ← source.trees s
    return s.render ++ "\n" ++ String.join (trees.map fun e => "    " ++ e.render ++ "\n")
  return String.join blocks

end Source

end Sprout
