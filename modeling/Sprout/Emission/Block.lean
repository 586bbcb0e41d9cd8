import Sprout.Emission

namespace Sprout.Emission

/-- The text of a condition: a value of type `bool`. -/
def condition (scopes : Scopes) (keyword : Token) (run : List Token) : Emitting String := do
  let run ← require .condition keyword run
  let e ← Expr.parse run
  let typed ← e.value scopes
  if typed.type = .bool then pure typed.text
  else (Fault.condition typed.type).raise e.position

/-- The name behind `var` at the front of a loop header. -/
def declaredName? : List Token → Option Token
  | name :: _ => if name.kind = .identifier then some name else none
  | [] => none

/-- The type of a loop variable: the type behind its colon, or the type of its initial value. -/
def loopType (scopes : Scopes) (start : Typed) : List Token → Emitting Ty
  | [] => pure start.type
  | colon :: run =>
    if colon.kind = .colon then do
      let run ← require .type colon run
      let e ← Expr.parseType run
      e.resolveType scopes
    else (Fault.unexpectedInHeader colon.lexeme).raise colon.position

/-- The header of a loop that declares its variable: `declaration` stands between `var`, the token
`keyword`, and the equal sign. The loop becomes a macro whose arguments all see the loop variable,
so none of the clauses may read a name that it hides. -/
def declaringHeader (scopes : Scopes) (keyword : Token) (declaration : List Token) (e : Expr)
    (start : Typed) : Emitting LoopHeader :=
  match declaredName? declaration with
  | none => Fault.loopNameExpected.raise keyword.position
  | some name => do
    let type ← loopType scopes start (declaration.drop 1)
    if type.isNumeric then
      let text ← start.converted type e.position
      pure
        { type := type.target
          name := Target.name name.lexeme
          start := text
          declares := some ⟨name.lexeme, type, name.position⟩
          shadowed := (scopes.lookup name.lexeme).map fun _ => name.lexeme }
    else (Fault.loopVariable type).raise name.position

/-- The header of a loop that uses a variable declared before. -/
def reusingHeader (scopes : Scopes) (target : List Token) (e : Expr) (start : Typed) :
    Emitting LoopHeader := do
  let named ← Expr.parse target
  if named.name?.isNone then
    Fault.loopVariableNotPlain.raise named.position
  else
    let typed ← named.value scopes
    typed.checkModifiable named.position
    if typed.type.isNumeric then
      let text ← start.converted typed.type e.position
      pure { type := "", name := typed.text, start := text }
    else (Fault.loopVariable typed.type).raise named.position

/-- Refuses an initial value that reads a name which the loop variable hides. -/
def checkStart (scopes : Scopes) (declaration : List Token) (e : Expr) : Except Violation Unit :=
  match declaredName? declaration with
  | none => .ok ()
  | some name =>
    if (scopes.lookup name.lexeme).isSome && e.mentions name.lexeme then
      .error ((Fault.initializerShadowed name.lexeme).blame e.position)
    else .ok ()

/-- The first clause of a `for` header: `var i: T = start` or `i = start`. -/
def loopHeader (scopes : Scopes) (keyword : Token) (run : List Token) : Emitting LoopHeader := do
  let run ← require .loopVariable keyword run
  match Token.splitTop (· = .equal) 0 run with
  | none => Fault.loopWithoutStart.raise keyword.position
  | some (target, equal, initial) =>
    let initial ← require .initialValue equal initial
    let e ← Expr.parse initial
    match target with
    | first :: declaration =>
      if first.kind = .keyword .var then
        checkStart scopes declaration e
        let start ← e.value scopes
        declaringHeader scopes first declaration e start
      else
        let start ← e.value scopes
        reusingHeader scopes target e start
    | [] =>
      let start ← e.value scopes
      reusingHeader scopes target e start

/-- The block header that a statement starts. -/
def headerOf (scopes : Scopes) (s : Statement) : Emitting Header :=
  match s.lead.kind with
  | .keyword .ifWord => do
    let text ← condition scopes s.lead s.rest
    pure (.block .branch ("if (" ++ text ++ ") ") false)
  | .keyword .whileWord => do
    let text ← condition scopes s.lead s.rest
    pure (.block .loop ("while (" ++ text ++ ") ") false)
  | _ => do
    let header ← loopHeader scopes s.lead s.rest
    pure (.loop header)

/-- Emits nothing yet: the header waits for its brace. -/
def header (deny : Bool) (e : Emission) (s : Statement) : Except Failure Emission := do
  let (header, e) ← e.settle deny (headerOf e.scopes s)
  return { e with pending := some header }

/-- The header of an `else`, with or without a condition. -/
def alternativeOf (scopes : Scopes) (s : Statement) : Emitting Header :=
  match s.rest with
  | [] => pure (.block .alternative "else " true)
  | next :: run =>
    if next.kind = .keyword .ifWord then do
      let text ← condition scopes next run
      pure (.block .branch ("else if (" ++ text ++ ") ") true)
    else (Fault.unexpectedAfter next.lexeme "else").raise next.position

/-- An `else`, which must follow the block of an `if` directly; `closed` is the kind of the block
that the previous statement closed. -/
def alternative (deny : Bool) (closed : Option Scope.Kind) (e : Emission) (s : Statement) :
    Except Failure Emission :=
  if closed = some .branch then do
    let (header, e) ← e.settle deny (alternativeOf e.scopes s)
    return { e with pending := some header }
  else Fault.elseWithoutIf.refuse s.lead.position

/-- Types a clause of a `for` header: a number, and not a step of zero. -/
def clauseValue (scopes : Scopes) (clause : Clause) (e : Expr) : Check Typed := do
  let typed ← e.value scopes
  if !typed.type.isNumeric then (Fault.clauseType clause typed.type).raise e.position
  else if clause = .step && typed.constant = some (.int 0) then Fault.zeroStep.raise e.position
  else pure typed

/-- Adds the text of a clause to a `for` header. -/
def withClause (header : LoopHeader) (clause : Clause) (text : String) :
    LoopHeader :=
  match clause with
  | .bound => { header with bound := some text }
  | .step => { header with step := some text }

/-- The bound or the step of a `for` header. -/
def clause (deny : Bool) (clause : Clause) (e : Emission) (s : Statement) :
    Except Failure Emission := do
  let expr ← Expr.parse s.tokens
  let (typed, e) ← e.settle deny (clauseValue e.scopes clause expr)
  match e.pending with
  | some (.loop header) =>
    match header.shadowed.filter (expr.mentions ·) with
    | some name => (Fault.clauseShadowed clause name).refuse expr.position
    | none => return { e with pending := some (.loop (withClause header clause typed.text)) }
  | _ => (Fault.unexpectedClause clause).refuse expr.position

/-- The word that opens the program. -/
def start (e : Emission) (s : Statement) : Except Failure Emission :=
  match s.rest with
  | extra :: _ => (Fault.unexpectedAfter extra.lexeme "main").refuse extra.position
  | [] =>
    if 0 < e.scopes.depth then Fault.mainNotGlobal.refuse s.position
    else if e.seenMain then Fault.duplicateMain.refuse s.position
    else .ok { e with seenMain := true, pending := some .main }

/-- Emits a line and opens a block of the given kind behind it. -/
def enter (e : Emission) (kind : Scope.Kind) (text : String) : Emission :=
  let e := e.line text
  { e with scopes := e.scopes.enter kind }

/-- The opening brace of the main block. The arguments of the program are its first variable. -/
def openMain (e : Emission) : Except Failure Emission := do
  let e := e.enter .main "int main(int argc, char** argv) \x7b"
  let (_, scopes) ← e.scopes.declareVariable "args" (.array .str none) false
  return { e with scopes }.line "const rt::vector<std::string> args = rt::make_args(argc, argv);"

/-- The opening brace of a `for` loop. -/
def openLoop (deny : Bool) (e : Emission) (header : LoopHeader) : Except Failure Emission :=
  match header.bound with
  | none => .error (.violation (.unplaced .boundMissing))
  | some bound => do
    let args := ", ".intercalate
      [header.type, header.name, header.start, bound, header.step.getD "1"]
    let e := e.enter .loop ("RT_FOR(" ++ args ++ ") \x7b")
    match header.declares with
    | none => return e
    | some own => e.declare deny own.name ⟨own.type, none, true⟩ own.position

/-- An opening brace: it opens the block of the header that waits for it, or else a plain block. -/
def openBlock (deny : Bool) (e : Emission) : Except Failure Emission :=
  let free := { e with pending := none }
  match e.pending with
  | none => .ok (free.enter .plain "\x7b")
  | some .main => free.openMain
  | some (.block kind text true) =>
    let e := free.extend (" " ++ text ++ "\x7b")
    .ok { e with scopes := e.scopes.enter kind }
  | some (.block kind text false) => .ok (free.enter kind (text ++ "\x7b"))
  | some (.loop header) => free.openLoop deny header

/-- A closing brace. The main block returns zero at its end. -/
def closeBlock (e : Emission) (position : Position) : Except Failure Emission := do
  let e := if e.scopes.current.kind = .main then e.line "return 0;" else e
  let (scope, scopes) ← (e.scopes.leave.mapError (·.orAt position) : Except Violation _)
  return { { e with scopes }.line "\x7d" with closed := some scope.kind }

/-- A `break` or a `continue`. -/
def jump (e : Emission) (s : Statement) : Except Failure Emission :=
  match s.rest with
  | extra :: _ => (Fault.unexpectedAfter extra.lexeme s.lead.lexeme).refuse extra.position
  | [] =>
    if e.scopes.inLoop then .ok (e.line (s.lead.lexeme ++ ";"))
    else (Fault.jumpOutsideLoop s.lead.lexeme).refuse s.position

/-- The text of what a `return` returns: a whole number, by default zero. -/
def resultText (scopes : Scopes) (run : List Token) : Except Failure String :=
  match run with
  | [] => .ok "0"
  | _ => do
    let e ← Expr.parse run
    let typed ← (e.value scopes).outcome
    if typed.type.isInteger then return typed.text
    else (Fault.returnType typed.type).refuse e.position

/-- A `return`. -/
def result (e : Emission) (s : Statement) : Except Failure Emission :=
  if e.scopes.inMain then do
    let text ← resultText e.scopes s.rest
    return e.line ("return " ++ text ++ ";")
  else Fault.returnOutsideMain.refuse s.position

end Sprout.Emission
