import Sprout.Expr.Parser
import Sprout.Statement
import Sprout.Typing

namespace Sprout

/-- What the user of the compiler may choose. -/
structure Options where
  /-- The file named by the first line of the output. -/
  runtimeHeader : String := "sprout_runtime.hpp"
  /-- Spaces per open block. -/
  indent : Nat := 4
  /-- Whether the first warning is a failure. -/
  denyWarnings : Bool := false
deriving DecidableEq, Repr

/-- A line of the generated program and the number of blocks around it. -/
structure Line where
  depth : Nat
  text : String
deriving DecidableEq, Repr

/-- A line with the spaces in front of it and its end. -/
def Line.render (indent : Nat) (line : Line) : String :=
  repeated ' ' (indent * line.depth) ++ line.text ++ "\n"

/-- A line as deep as the place it is emitted at. -/
def Line.flat (text : String) : Line := ⟨0, text⟩

/-- The variable that a `for` loop declares. -/
structure LoopVariable where
  name : String
  type : Ty
  position : Position
deriving DecidableEq, Repr

/-- A `for` header, as far as its clauses have been read. The bound and the step may not read the
name `shadowed`, which the loop variable hides. -/
structure LoopHeader where
  type : String
  name : String
  start : String
  bound : Option String := none
  step : Option String := none
  /-- The variable that the loop itself declares. -/
  declares : Option LoopVariable := none
  shadowed : Option String := none
deriving DecidableEq, Repr

/-- A block header that waits for its opening brace. A header that is `inline` continues the line of
the closing brace before it. -/
inductive Header
  | main
  | block (kind : Scope.Kind) (text : String) (inline : Bool)
  | loop (header : LoopHeader)
deriving DecidableEq, Repr

/-- Why a statement is refused. -/
inductive Failure
  | malformed (defect : Defect Malformed)
  | violation (violation : Violation)

/-- The reading and typing of a statement. -/
abbrev Emitting := Checked Failure

instance : MonadLift Check Emitting where
  monadLift check := check.mapError .violation

instance : MonadLift (Except Violation) Emitting where
  monadLift outcome := .lift (outcome.mapError .violation)

instance : MonadLift (Except (Defect Malformed)) Emitting where
  monadLift outcome := .lift (outcome.mapError .malformed)

instance : MonadLift (Except Violation) (Except Failure) where
  monadLift outcome := outcome.mapError .violation

instance : MonadLift (Except (Defect Malformed)) (Except Failure) where
  monadLift outcome := outcome.mapError .malformed

/-- Refuses a statement for a fault at a position. -/
def Fault.refuse {α : Type} (fault : Fault) (position : Position) : Except Failure α :=
  .error (.violation (fault.blame position))

/-- A run that must not be empty; its absence is shown at the token beside which it is missing. -/
def require (part : Part) (beside : Token) (run : List Token) :
    Except (Defect Malformed) (List Token) :=
  match run with
  | [] => .error (beside.defect (.missingPart part beside.lexeme))
  | _ => .ok run

/-- The state of an emission. The generated program grows line by line while the statements are
read, and a block header waits for the brace that opens its block, which is where the scope of the
block is opened too. -/
structure Emission where
  /-- The lines so far, the latest first. -/
  lines : List Line := []
  scopes : Scopes := {}
  /-- The warnings so far, in order. -/
  diagnostics : List Diagnostic := []
  seenMain : Bool := false
  pending : Option Header := none
  /-- The kind of the block that the previous statement closed. -/
  closed : Option Scope.Kind := none
deriving DecidableEq, Repr

namespace Emission

/-- Adds a line inside the open blocks. -/
def line (e : Emission) (text : String) : Emission :=
  { e with lines := ⟨e.scopes.depth, text⟩ :: e.lines }

/-- Adds lines whose depths count from the open blocks. -/
def emit (e : Emission) (lines : List Line) : Emission :=
  { e with
    lines := (lines.map fun l => { l with depth := e.scopes.depth + l.depth }).reverse ++ e.lines }

/-- Continues the latest line. -/
def extend (e : Emission) (text : String) : Emission :=
  match e.lines with
  | [] => { e with lines := [.flat text] }
  | latest :: earlier => { e with lines := { latest with text := latest.text ++ text } :: earlier }

/-- Records warnings, or fails on the first one if warnings are denied. -/
def report (deny : Bool) (e : Emission) (warnings : List Diagnostic) :
    Except Violation Emission :=
  match deny, warnings with
  | true, first :: _ => .error ⟨.denied first.message, first.position⟩
  | _, _ => .ok { e with diagnostics := e.diagnostics ++ warnings }

/-- The warning about a declaration that hides another one. -/
def shadowWarning (name : String) (position : Position) : Diagnostic :=
  .warning .shadowing ("'" ++ name ++ "' shadows a declaration of an enclosing scope") position

/-- Declares a name in the innermost scope, and warns if that hides another declaration. -/
def declare (deny : Bool) (e : Emission) (name : String) (symbol : Symbol) (position : Position) :
    Except Violation Emission := do
  let (declared, scopes) ← e.scopes.declare name symbol
  let e := { e with scopes }
  match declared with
  | .fresh => .ok e
  | .shadowing => e.report deny [shadowWarning name position]

/-- The result of reading a statement, after its warnings have been recorded. -/
def settle {α : Type} (deny : Bool) (e : Emission) (checked : Emitting α) :
    Except Failure (α × Emission) := do
  let value ← checked.outcome
  let e ← e.report deny checked.warnings
  return (value, e)

end Emission

end Sprout
