import Sprout.Fault
import Sprout.Malformed
import Sprout.Token.Lexer

namespace Sprout

/-- Why a file cannot be read or written. -/
inductive FileFailure
  | notFound
  | exists
  | notDirectory
  | isDirectory
  | nameTooLong
  | nullCharacter
deriving DecidableEq, Repr

/-- The words of the operating system for a failure. -/
def FileFailure.message : FileFailure → String
  | notFound => "No such file or directory (os error 2)"
  | .exists => "File exists (os error 17)"
  | notDirectory => "Not a directory (os error 20)"
  | isDirectory => "Is a directory (os error 21)"
  | nameTooLong => "File name too long (os error 36)"
  | nullCharacter => "file name contained an unexpected NUL byte"

/-- Why a compilation fails, with everything needed to report it: the source, the place, and for a
meaningless statement its text. -/
inductive CompileError
  | unreadable (failure : FileFailure)
  | lexical (source : Source) (defect : Defect Lexical)
  | malformed (source : Source) (defect : Defect Malformed)
  | semantic (source : Source) (fault : Fault) (position : Position) (statement : String)

namespace CompileError

/-- The place that is blamed. -/
def position? : CompileError → Option Position
  | unreadable _ => none
  | lexical _ defect => some defect.position
  | malformed _ defect => some defect.position
  | semantic _ _ position _ => some position

/-- The message, headed by the place. -/
def message : CompileError → String
  | unreadable failure => failure.message
  | lexical source defect => source.describe defect.position ++ ": " ++ defect.cause.message
  | malformed source defect => source.describe defect.position ++ ": " ++ defect.cause.message
  | semantic source fault position _ => source.describe position ++ ": " ++ fault.message

/-- The line of the source that shows the error; nothing for meaningless statements. -/
def context : CompileError → String
  | lexical source defect => source.highlight defect.position defect.width
  | malformed source defect => source.highlight defect.position defect.width
  | _ => ""

/-- The full report. -/
def render (error : CompileError) : String :=
  match error with
  | unreadable _ => "failed to read source: " ++ error.message
  | lexical _ _ => "lex error: " ++ error.message ++ "\n" ++ error.context
  | malformed _ _ => "syntax error: " ++ error.message ++ "\n" ++ error.context
  | semantic _ _ _ statement =>
    "semantic error: " ++ error.message ++ "\n  in `" ++ statement ++ "`"

end CompileError

end Sprout
