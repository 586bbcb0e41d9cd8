import Sprout.Source

namespace Sprout

/-- How grave a diagnostic is, from the mildest up. -/
inductive Severity
  | info
  | warning
  | error
deriving DecidableEq, Repr, Ord

/-- The word a severity is shown as. -/
def Severity.label : Severity → String
  | .info => "info"
  | .warning => "warning"
  | .error => "error"

/-- What kind of thing a diagnostic is about. -/
inductive Diagnostic.Code
  | precisionLoss
  | shadowing
  | stageSummary
deriving DecidableEq, Repr

/-- The short name of a code. -/
def Diagnostic.Code.label : Diagnostic.Code → String
  | .precisionLoss => "W0001"
  | .shadowing => "W0002"
  | .stageSummary => "I0001"

/-- What a compilation wants to say without failing: a warning with its place, or the count of a
stage. -/
structure Diagnostic where
  severity : Severity
  message : String
  code : Option Diagnostic.Code
  position : Option Position
deriving DecidableEq, Repr

namespace Diagnostic

/-- A warning about the place `position`. -/
def warning (code : Code) (message : String) (position : Position) : Diagnostic :=
  ⟨.warning, message, some code, some position⟩

/-- The count `count` of the things called `noun` that the stage made of the file `name`. -/
def summary (name : String) (count : Nat) (noun : String) : Diagnostic :=
  ⟨.info, name ++ ": " ++ toString count ++ " " ++ noun, some .stageSummary, none⟩

/-- Whether the diagnostic is a warning. -/
def isWarning (d : Diagnostic) : Bool :=
  d.severity = .warning

/-- The code as it follows the severity, in brackets; nothing without a code. -/
def codeTag (d : Diagnostic) : String :=
  match d.code with
  | none => ""
  | some code => "[" ++ code.label ++ "]"

/-- The diagnostic on one line: severity, code, message and place. -/
def render (d : Diagnostic) : String :=
  d.severity.label ++ d.codeTag ++ ": " ++ d.message ++
    match d.position with
    | none => ""
    | some position => " at " ++ position.render

end Diagnostic

end Sprout
