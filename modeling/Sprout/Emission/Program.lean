import Sprout.Emission.Assignment
import Sprout.Emission.Block
import Sprout.Emission.Declaration

namespace Sprout

namespace Statement.Kind

/-- Whether a statement may stand between a block header and its brace. -/
def continuesHeader : Statement.Kind → Bool
  | opening | bound | step => true
  | _ => false

/-- Whether a statement may stand outside the main block. -/
def isGlobal : Statement.Kind → Bool
  | main | declaration | initialization | closing => true
  | _ => false

end Statement.Kind

namespace Emission

/-- Emits a statement that is allowed where it stands; `closed` is the kind of the block that the
previous statement closed. -/
def dispatch (deny : Bool) (closed : Option Scope.Kind) (e : Emission) (s : Statement) :
    Except Failure Emission :=
  match s.kind with
  | .main => e.start s
  | .declaration | .initialization => e.declaration deny s
  | .operation => e.operation deny s
  | .assignment => e.assignment deny s
  | .header => e.header deny s
  | .alternative => e.alternative deny closed s
  | .bound => e.clause deny .bound s
  | .step => e.clause deny .step s
  | .jump => e.jump s
  | .result => e.result s
  | .opening => e.openBlock deny
  | .closing => e.closeBlock s.position

/-- Emits one statement. Outside the main block only declarations are allowed, and between a block
header and its brace only the clauses of a `for` header. -/
def step (deny : Bool) (e : Emission) (s : Statement) : Except Failure Emission :=
  if e.pending.isSome && !s.kind.continuesHeader then Fault.braceExpected.refuse s.position
  else if e.scopes.depth = 0 && e.pending.isNone && !s.kind.isGlobal then
    Fault.outsideMain.refuse s.position
  else dispatch deny e.closed { e with closed := none } s

/-- Emits statements in order, up to the first failure and the statement that caused it. -/
def run (deny : Bool) (e : Emission) : List Statement → Except (Failure × Statement) Emission
  | [] => .ok e
  | s :: rest =>
    match e.step deny s with
    | .error failure => .error (failure, s)
    | .ok e => run deny e rest

/-- What is missing at the end of the statements, if anything is. -/
def unfinished? (e : Emission) : Option Fault :=
  if e.pending.isSome then some .braceExpected
  else if 0 < e.scopes.depth then some .braceMissing
  else none

/-- The text of the generated program. -/
def code (options : Options) (e : Emission) : String :=
  "#include \"" ++ options.runtimeHeader ++ "\"\n\n" ++
    String.join (e.lines.reverse.map (Line.render options.indent))

end Emission

/-- Where the end of a list of statements is reported: at its last token. -/
def Statement.endPosition (statements : List Statement) : Position :=
  (statements.getLast?.map (·.last.position)).getD .start

end Sprout
