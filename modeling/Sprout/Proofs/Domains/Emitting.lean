import Sprout.Emission.Program
import Sprout.Proofs.Domains.Depths
import Sprout.Proofs.Domains.Headers
import Sprout.Proofs.Domains.Planning

namespace Sprout

open Token

namespace Scopes

/-- The scopes of a stack, from the inside out. The global one must be among them. -/
def ofAll? : List Scope → Option Scopes
  | [] => none
  | current :: enclosing => some ⟨current, enclosing⟩

/-- How many scopes are open inside the global one. -/
def depth? (s : Scopes) : Option Nat :=
  if 1 ≤ s.all.length then some (s.all.length - 1) else none

/-- Whether a name is declared in an enclosing scope and not in the innermost one. -/
def isShadowing? (s : Scopes) (name : String) : Option Bool := do
  let current ← s.all.head?
  some (!current.contains name && s.all.tail.any (·.contains name))

/-- Declares a name in the innermost scope, where it must be new. -/
def declare? (s : Scopes) (name : String) (symbol : Symbol) :
    Except (Option Violation) (Declared × Scopes) := do
  let current ← demand s.all.head?
  if current.contains name then .error (some (.unplaced (.alreadyDeclared name)))
  else
    let shadowing ← demand (s.isShadowing? name)
    let scopes ← demand
      (ofAll? ({ current with symbols := (name, symbol) :: current.symbols } :: s.all.tail))
    .ok (if shadowing then .shadowing else .fresh, scopes)

/-- Closes the innermost block, which must not be the global one. -/
def leave? (s : Scopes) : Except (Option Violation) (Scope × Scopes) := do
  let current ← demand s.all.head?
  if s.all.length = 1 then .error (some (.unplaced .unmatchedBrace))
  else
    let scopes ← demand (ofAll? s.all.tail)
    .ok (current, scopes)

variable {s : Scopes}

@[simp] theorem head?_all : s.all.head? = some s.current := rfl

@[simp] theorem depth?_eq : s.depth? = some s.depth := by
  simp [depth?, depth, all]

@[simp] theorem isShadowing?_eq (name : String) : s.isShadowing? name = some (s.isShadowing name) :=
  rfl

/-- A name is declared without a crash, for an innermost scope is always there. -/
theorem declare?_eq (name : String) (symbol : Symbol) :
    s.declare? name symbol = (s.declare name symbol).mapError some := by
  rw [declare?, declare, head?_all, demand_some_bind]
  split <;> rfl

/-- Closing a block leaves the global scope open. -/
theorem leave?_eq : s.leave? = s.leave.mapError some := by
  obtain ⟨current, enclosing⟩ := s
  cases enclosing <;> rfl

end Scopes

namespace Declaration

/-- The names that hide a declaration of an enclosing scope. -/
def hidden? (scopes : Scopes) : List Token → Option (List Token)
  | [] => some []
  | name :: others => do
    let shadows ← scopes.isShadowing? name.lexeme
    let hidden ← hidden? scopes others
    some (if shadows then name :: hidden else hidden)

/-- Refuses initializers that read a name the declaration hides. -/
def checkShadowing? (scopes : Scopes) (d : Declaration) : Except (Option Violation) Unit := do
  let hidden ← demand (hidden? scopes d.names)
  match hidden.findSome? fun name => (d.reader? name.lexeme).map (name, ·) with
  | none => .ok ()
  | some (name, e) => .error (some ((Fault.initializerShadowed name.lexeme).blame e.position))

/-- The names that hide another one are found without a crash. -/
theorem hidden?_eq (scopes : Scopes) (names : List Token) :
    hidden? scopes names = some (names.filter (scopes.isShadowing ·.lexeme)) := by
  induction names with
  | nil => rfl
  | cons name others ih =>
    rw [hidden?, Scopes.isShadowing?_eq, ih, List.filter_cons]
    rfl

/-- The check that no initializer reads a name that the declaration hides crashes nowhere. -/
theorem checkShadowing?_eq (scopes : Scopes) (d : Declaration) :
    d.checkShadowing? scopes = (d.checkShadowing scopes).mapError some := by
  rw [checkShadowing?, checkShadowing, hidden?_eq, demand_some_bind]
  cases (d.names.filter (scopes.isShadowing ·.lexeme)).findSome? fun name =>
    (d.reader? name.lexeme).map (name, ·) <;> rfl

end Declaration

namespace Emission

variable {deny : Bool} {indent : Nat} {e : Emission} {s : Statement}

/-- The number of spaces in front of a line, which must fit 64 bits. -/
def indentation? (indent : Nat) (e : Emission) : Option Nat := do
  let depth ← e.scopes.depth?
  if indent * depth < 2 ^ 64 then some (indent * depth) else none

/-- Adds a line inside the open blocks. -/
def line? (indent : Nat) (e : Emission) (text : String) : Except (Option Failure) Emission := do
  let _ ← demand (e.indentation? indent)
  .ok (e.line text)

/-- Adds lines whose depths count from the open blocks. -/
def emit? (indent : Nat) (e : Emission) (lines : List Line) : Except (Option Failure) Emission := do
  let _ ← demand (e.indentation? indent)
  .ok (e.emit lines)

/-- The result of reading a statement, after its warnings have been recorded. -/
def settle? {α : Type} (deny : Bool) (e : Emission) (checked : Checked (Option Failure) α) :
    Except (Option Failure) (α × Emission) := do
  let value ← checked.outcome
  let e ← (e.report deny checked.warnings).mapError (some ∘ .violation)
  return (value, e)

/-- Declares a name in the innermost scope, and warns if that hides another declaration. -/
def declare? (deny : Bool) (e : Emission) (name : String) (symbol : Symbol) (position : Position) :
    Except (Option Violation) Emission := do
  let (declared, scopes) ← e.scopes.declare? name symbol
  let e := { e with scopes }
  match declared with
  | .fresh => .ok e
  | .shadowing => (e.report deny [shadowWarning name position]).mapError some

/-- Adds the names of a declaration to the innermost scope. -/
def bind? (deny : Bool) (mutable : Bool) (e : Emission) :
    List Binding → Except (Option Violation) Emission
  | [] => .ok e
  | b :: others => do
    let e ← (e.declare? deny b.name.lexeme (b.symbol mutable) b.name.position).mapError
      (Option.map (·.orAt b.name.position))
    bind? deny mutable e others

/-- Emits a declaration. -/
def declaration? (deny : Bool) (indent : Nat) (e : Emission) (s : Statement) :
    Except (Option Failure) Emission := do
  let d ← Declaration.read? s
  (d.checkShadowing? e.scopes).mapError (Option.map .violation)
  let (plan, e) ← e.settle? deny ((d.plan? e.scopes).mapError (Option.map .violation))
  let e ← (e.bind? deny (!d.isConstant) plan.bindings).mapError (Option.map .violation)
  e.emit? indent plan.lines

/-- Emits an assignment. -/
def assignment? (deny : Bool) (indent : Nat) (e : Emission) (s : Statement) :
    Except (Option Failure) Emission := do
  let a ← Assignment.read? s
  let (lines, e) ← e.settle? deny ((a.lines? e.scopes).mapError (Option.map .violation))
  e.emit? indent lines

/-- Emits expressions evaluated for their effect. -/
def operation? (deny : Bool) (indent : Nat) (e : Emission) (s : Statement) :
    Except (Option Failure) Emission := do
  let es ← (Expr.parseList? s.tokens).mapError (Option.map .malformed)
  let (lines, e) ← (e.settle deny (operationLines e.scopes es)).mapError some
  e.emit? indent lines

/-- Emits nothing yet: the header waits for its brace. -/
def header? (deny : Bool) (e : Emission) (s : Statement) : Except (Option Failure) Emission := do
  let (header, e) ← e.settle? deny (headerOf? e.scopes s)
  return { e with pending := some header }

/-- An `else`, which must follow the block of an `if` directly. -/
def alternative? (deny : Bool) (closed : Option Scope.Kind) (e : Emission) (s : Statement) :
    Except (Option Failure) Emission := do
  let keyword ← demand s.tokens[0]?
  if closed = some .branch then
    let (header, e) ← e.settle? deny (alternativeOf? e.scopes s)
    return { e with pending := some header }
  else (Fault.elseWithoutIf.refuse keyword.position).mapError some

/-- The bound or the step of a `for` header. -/
def clause? (deny : Bool) (clause : Clause) (e : Emission) (s : Statement) :
    Except (Option Failure) Emission := do
  let expr ← (Expr.parse? s.tokens).mapError (Option.map .malformed)
  let (typed, e) ← (e.settle deny (clauseValue e.scopes clause expr)).mapError some
  match e.pending with
  | some (.loop header) =>
    match header.shadowed.filter (expr.mentions ·) with
    | some name => ((Fault.clauseShadowed clause name).refuse expr.position).mapError some
    | none => return { e with pending := some (.loop (withClause header clause typed.text)) }
  | _ => ((Fault.unexpectedClause clause).refuse expr.position).mapError some

/-- The text of what a `return` returns. -/
def resultText? (scopes : Scopes) (run : List Token) : Except (Option Failure) String :=
  match run with
  | [] => .ok "0"
  | _ => do
    let e ← (Expr.parse? run).mapError (Option.map .malformed)
    let typed ← ((e.value scopes).outcome.mapError some).mapError (Option.map .violation)
    if typed.type.isInteger then return typed.text
    else ((Fault.returnType typed.type).refuse e.position).mapError some

/-- A `break` or a `continue`. -/
def jump? (indent : Nat) (e : Emission) (s : Statement) : Except (Option Failure) Emission := do
  let keyword ← demand s.tokens[0]?
  match s.tokens[1]? with
  | some extra =>
    ((Fault.unexpectedAfter extra.lexeme keyword.lexeme).refuse extra.position).mapError some
  | none =>
    if e.scopes.inLoop then e.line? indent (keyword.lexeme ++ ";")
    else ((Fault.jumpOutsideLoop keyword.lexeme).refuse keyword.position).mapError some

/-- A `return`. -/
def result? (indent : Nat) (e : Emission) (s : Statement) : Except (Option Failure) Emission := do
  let keyword ← demand s.tokens[0]?
  if e.scopes.inMain then
    let rest ← demand (slice? 1 s.tokens.length s.tokens)
    let text ← resultText? e.scopes rest
    e.line? indent ("return " ++ text ++ ";")
  else (Fault.returnOutsideMain.refuse keyword.position).mapError some

/-- Emits a line and opens a block of the given kind behind it. -/
def enter? (indent : Nat) (e : Emission) (kind : Scope.Kind) (text : String) :
    Except (Option Failure) Emission := do
  let e ← e.line? indent text
  .ok { e with scopes := e.scopes.enter kind }

/-- The opening brace of the main block. -/
def openMain? (indent : Nat) (e : Emission) : Except (Option Failure) Emission := do
  let e ← e.enter? indent .main "int main(int argc, char** argv) \x7b"
  let (_, scopes) ← (e.scopes.declare? "args" ⟨.array .str none, none, false⟩).mapError
    (Option.map .violation)
  { e with scopes }.line? indent "const rt::vector<std::string> args = rt::make_args(argc, argv);"

/-- The opening brace of a `for` loop. -/
def openLoop? (deny : Bool) (indent : Nat) (e : Emission) (header : LoopHeader) :
    Except (Option Failure) Emission :=
  match header.bound with
  | none => .error (some (.violation (.unplaced .boundMissing)))
  | some bound => do
    let args := ", ".intercalate
      [header.type, header.name, header.start, bound, header.step.getD "1"]
    let e ← e.enter? indent .loop ("RT_FOR(" ++ args ++ ") \x7b")
    match header.declares with
    | none => return e
    | some own =>
      (e.declare? deny own.name ⟨own.type, none, true⟩ own.position).mapError (Option.map .violation)

/-- An opening brace. -/
def openBlock? (deny : Bool) (indent : Nat) (e : Emission) : Except (Option Failure) Emission :=
  let free := { e with pending := none }
  match e.pending with
  | none => free.enter? indent .plain "\x7b"
  | some .main => free.openMain? indent
  | some (.block kind text true) =>
    let e := free.extend (" " ++ text ++ "\x7b")
    .ok { e with scopes := e.scopes.enter kind }
  | some (.block kind text false) => free.enter? indent kind (text ++ "\x7b")
  | some (.loop header) => free.openLoop? deny indent header

/-- The line at the end of the main block, if the innermost block is that. -/
def endMain? (indent : Nat) (e : Emission) : Except (Option Failure) Emission := do
  let current ← demand e.scopes.all.head?
  if current.kind = .main then e.line? indent "return 0;" else .ok e

/-- A closing brace. -/
def closeBlock? (indent : Nat) (e : Emission) (position : Position) :
    Except (Option Failure) Emission := do
  let e ← e.endMain? indent
  let (scope, scopes) ← e.scopes.leave?.mapError (Option.map fun v => .violation (v.orAt position))
  let e ← { e with scopes }.line? indent "\x7d"
  return { e with closed := some scope.kind }

/-- Emits a statement that is allowed where it stands. -/
def dispatch? (deny : Bool) (indent : Nat) (closed : Option Scope.Kind) (e : Emission)
    (s : Statement) : Except (Option Failure) Emission :=
  match s.kind with
  | .main => (e.start s).mapError some
  | .declaration | .initialization => e.declaration? deny indent s
  | .operation => e.operation? deny indent s
  | .assignment => e.assignment? deny indent s
  | .header => e.header? deny s
  | .alternative => e.alternative? deny closed s
  | .bound => e.clause? deny .bound s
  | .step => e.clause? deny .step s
  | .jump => e.jump? indent s
  | .result => e.result? indent s
  | .opening => e.openBlock? deny indent
  | .closing => e.closeBlock? indent s.position

/-- Emits one statement. -/
def step? (deny : Bool) (indent : Nat) (e : Emission) (s : Statement) :
    Except (Option Failure) Emission := do
  if e.pending.isSome && !s.kind.continuesHeader then
    (Fault.braceExpected.refuse s.position).mapError some
  else
    let depth ← demand e.scopes.depth?
    if depth = 0 && e.pending.isNone && !s.kind.isGlobal then
      (Fault.outsideMain.refuse s.position).mapError some
    else dispatch? deny indent e.closed { e with closed := none } s

/-- Where a line has room one block deeper, it has room. -/
theorem room_of_deeper {depth room : Nat} (h : indent * (depth + 1) < room) : indent * depth < room :=
  lt_of_le_of_lt (Nat.mul_le_mul_left indent (Nat.le_succ depth)) h

/-- The spaces in front of a line can be counted in 64 bits as long as the line has room for
them. -/
theorem indentation?_eq (h : indent * e.scopes.depth < 2 ^ 64) :
    e.indentation? indent = some (indent * e.scopes.depth) := by
  rw [indentation?, Scopes.depth?_eq]
  exact if_pos h

/-- A line is added without a crash where there is room for its indent. -/
theorem line?_eq (h : indent * e.scopes.depth < 2 ^ 64) (text : String) :
    e.line? indent text = .ok (e.line text) := by
  rw [line?, indentation?_eq h, demand_some_bind]

/-- Lines are added without a crash where there is room for the indent of the open blocks. -/
theorem emit?_eq (h : indent * e.scopes.depth < 2 ^ 64) (lines : List Line) :
    e.emit? indent lines = .ok (e.emit lines) := by
  rw [emit?, indentation?_eq h, demand_some_bind]

/-- Recording warnings crashes nowhere, whether or not they are denied. -/
theorem settle?_eq {α : Type} (checked : Emitting α) :
    e.settle? deny (checked.mapError some) = (e.settle deny checked).mapError some := by
  obtain ⟨outcome, warnings⟩ := checked
  rw [settle?, settle]
  cases outcome with
  | error failure => rfl
  | ok value =>
    simp only [Checked.mapError, mapError_ok, ok_bind, liftM_violation]
    cases e.report deny warnings <;> rfl

/-- A check may be seen as a reading of a statement before or after its crashes are. -/
theorem mapError_violation {α : Type} (check : Check α) :
    (check.mapError some).mapError (Option.map .violation) =
      (liftM check : Emitting α).mapError some := by
  change _ = (check.mapError Failure.violation).mapError some
  rw [Checked.mapError_mapError, Checked.mapError_mapError]
  rfl

/-- A defect of the tokens that is reported is reported as the failure it is. -/
theorem mapError_malformed {α : Type} (outcome : Except (Defect Malformed) α) :
    (outcome.mapError some).mapError (Option.map .malformed) =
      (liftM outcome : Except Failure α).mapError some := by
  rw [liftM_malformed, Sprout.mapError_mapError, Sprout.mapError_mapError]
  rfl

/-- A violation that is reported is reported as the failure it is. -/
theorem mapError_liftM {α : Type} (outcome : Except Violation α) :
    (outcome.mapError some).mapError (Option.map .violation) =
      (liftM outcome : Except Failure α).mapError some := by
  rw [liftM_violation, Sprout.mapError_mapError, Sprout.mapError_mapError]
  rfl

/-- Declaring a name with its warning crashes nowhere. -/
theorem declare?_eq (name : String) (symbol : Symbol) (position : Position) :
    e.declare? deny name symbol position = (e.declare deny name symbol position).mapError some := by
  rw [declare?, declare, Scopes.declare?_eq, Sprout.mapError_bind]
  congr 1
  funext answer
  obtain ⟨declared, scopes⟩ := answer
  cases declared <;> rfl

/-- Declaring the names of a declaration one after the other crashes nowhere. -/
theorem bind?_eq {mutable : Bool} (bindings : List Binding) :
    e.bind? deny mutable bindings = (e.bind deny mutable bindings).mapError some := by
  induction bindings generalizing e with
  | nil => rfl
  | cons b others ih =>
    rw [bind?, Emission.bind, declare?_eq, Sprout.mapError_bind, Sprout.mapError_mapError,
      Sprout.mapError_mapError]
    simp only [ih]
    rfl

/-- A declaration starts with a keyword, so it is read inside its tokens. Its lines have room for
their blanks where the indent of its block fits. -/
theorem declaration?_eq {word : Keyword} (hlead : s.lead.kind = .keyword word)
    (hs : s.StandsIn Position.Fits) (h : indent * e.scopes.depth < 2 ^ 64) :
    e.declaration? deny indent s = (e.declaration deny s).mapError some := by
  rw [declaration?, Emission.declaration, Declaration.read?_eq hlead hs, Sprout.mapError_bind]
  congr 1
  funext d
  rw [Declaration.checkShadowing?_eq, mapError_liftM, Declaration.plan?_eq, mapError_violation,
    settle?_eq, Sprout.mapError_bind]
  congr 1
  funext _
  rw [Sprout.mapError_bind]
  refine bind_congr_of_ok ?_
  rintro ⟨plan, e₁⟩ hsettle
  rw [mapError_eq_ok_iff] at hsettle
  obtain ⟨-, rfl⟩ := eq_of_settle hsettle
  dsimp only
  rw [bind?_eq, mapError_liftM, Sprout.mapError_bind]
  refine bind_congr_of_ok fun e₂ hbind => ?_
  rw [mapError_eq_ok_iff, liftM_violation_eq_ok_iff] at hbind
  obtain ⟨scopes, diagnostics, hkinds, rfl⟩ := eq_of_bind hbind
  exact emit?_eq (depth_eq_of_kinds hkinds ▸ h) plan.lines

/-- An assignment is emitted without a crash. Its values are not empty, which is what finding them
by the index of their target needs. -/
theorem assignment?_eq (hs : s.StandsIn Position.Fits) (h : indent * e.scopes.depth < 2 ^ 64) :
    e.assignment? deny indent s = (e.assignment deny s).mapError some := by
  rw [assignment?, Emission.assignment, Assignment.read?_eq hs, Sprout.mapError_bind]
  refine bind_congr_of_ok fun a hread => ?_
  rw [mapError_eq_ok_iff] at hread
  obtain ⟨before, after, -, -, hvalues⟩ := Assignment.read_eq_ok hread
  rw [Assignment.lines?_eq (Expr.ne_nil_of_parseList hvalues), mapError_violation, settle?_eq,
    Sprout.mapError_bind]
  refine bind_congr_of_ok ?_
  rintro ⟨lines, e₁⟩ hsettle
  rw [mapError_eq_ok_iff] at hsettle
  obtain ⟨-, rfl⟩ := eq_of_settle hsettle
  refine emit?_eq ?_ lines
  exact h

/-- Expressions that are evaluated for their effect are emitted without a crash. -/
theorem operation?_eq (hs : s.StandsIn Position.Fits) (h : indent * e.scopes.depth < 2 ^ 64) :
    e.operation? deny indent s = (e.operation deny s).mapError some := by
  rw [operation?, Emission.operation, Expr.parseList?_eq hs, mapError_malformed,
    Sprout.mapError_bind]
  congr 1
  funext es
  rw [Sprout.mapError_bind]
  refine bind_congr_of_ok ?_
  rintro ⟨lines, e₁⟩ hsettle
  rw [mapError_eq_ok_iff] at hsettle
  obtain ⟨-, rfl⟩ := eq_of_settle hsettle
  refine emit?_eq ?_ lines
  exact h

/-- A block header is read without a crash and adds no line, so it needs no room for one. -/
theorem header?_eq (hs : s.StandsIn Position.Fits) :
    e.header? deny s = (e.header deny s).mapError some := by
  rw [header?, header, headerOf?_eq hs, settle?_eq, Sprout.mapError_bind]
  rfl

/-- An `else` is read without a crash. The token that it is found by is the first one of its
statement. -/
theorem alternative?_eq (hs : s.StandsIn Position.Fits) (closed : Option Scope.Kind) :
    e.alternative? deny closed s = (e.alternative deny closed s).mapError some := by
  have hlead : s.tokens[0]? = some s.lead := rfl
  rw [alternative?, alternative, hlead, demand_some_bind, alternativeOf?_eq hs, settle?_eq]
  split
  · rw [Sprout.mapError_bind]
    rfl
  · rfl

/-- A `break` or a `continue` is emitted without a crash. -/
theorem jump?_eq (h : indent * e.scopes.depth < 2 ^ 64) :
    e.jump? indent s = (e.jump s).mapError some := by
  obtain ⟨kind, lead, rest⟩ := s
  rw [jump?, jump]
  cases rest with
  | nil =>
    simp only [Statement.tokens, List.getElem?_cons_zero, demand_some_bind, List.getElem?_cons_succ,
      List.getElem?_nil]
    split
    · exact line?_eq h _
    · rfl
  | cons extra rest => rfl

/-- The bound and the step of a `for` header are read without a crash. -/
theorem clause?_eq (hs : s.StandsIn Position.Fits) (clause : Clause) :
    e.clause? deny clause s = (e.clause deny clause s).mapError some := by
  rw [clause?, Emission.clause, Expr.parse?_eq hs, mapError_malformed, Sprout.mapError_bind]
  congr 1
  funext expr
  rw [Sprout.mapError_bind]
  congr 1
  funext result
  obtain ⟨typed, e₁⟩ := result
  dsimp only
  cases e₁.pending with
  | none => rfl
  | some header =>
    cases header with
    | main | block => rfl
    | loop header =>
      dsimp only
      cases header.shadowed.filter (expr.mentions ·) <;> rfl

/-- What a `return` returns is read without a crash from tokens whose places fit 32 bits. -/
theorem resultText?_eq {run : List Token} (hrun : AllIn Position.Fits run) (scopes : Scopes) :
    resultText? scopes run = (resultText scopes run).mapError some := by
  cases run with
  | nil => rfl
  | cons t run =>
    rw [resultText?, resultText, Expr.parse?_eq hrun, mapError_malformed, Sprout.mapError_bind]
    · congr 1
      funext expr
      rw [mapError_liftM, Sprout.mapError_bind]
      congr 1
      funext typed
      split <;> rfl
    · exact List.cons_ne_nil t run
    · exact List.cons_ne_nil t run

/-- A `return` is emitted without a crash. Its tokens are sliced behind the keyword, which is
there. -/
theorem result?_eq (hs : s.StandsIn Position.Fits) (h : indent * e.scopes.depth < 2 ^ 64) :
    e.result? indent s = (e.result s).mapError some := by
  have hlead : s.tokens[0]? = some s.lead := rfl
  have hrest : slice? 1 s.tokens.length s.tokens = some s.rest := slice?_tail s.lead s.rest
  rw [result?, result, hlead, hrest, demand_some_bind]
  split
  · rw [demand_some_bind, resultText?_eq hs.rest, Sprout.mapError_bind]
    congr 1
    funext text
    exact line?_eq h _
  · rfl

/-- A block is opened without a crash where its first line has room. -/
theorem enter?_eq (h : indent * e.scopes.depth < 2 ^ 64) (kind : Scope.Kind) (text : String) :
    e.enter? indent kind text = .ok (e.enter kind text) := by
  rw [enter?, line?_eq h]
  rfl

/-- The main block is opened, and the line inside it is one block deeper. -/
theorem openMain?_eq (h : indent * (e.scopes.depth + 1) < 2 ^ 64) :
    e.openMain? indent = e.openMain.mapError some := by
  have hline := room_of_deeper h
  rw [openMain?, openMain, enter?_eq hline, ok_bind, Scopes.declare?_eq, mapError_liftM,
    Sprout.mapError_bind]
  refine bind_congr_of_ok ?_
  rintro ⟨declared, scopes⟩ hdeclare
  rw [mapError_eq_ok_iff, liftM_violation_eq_ok_iff] at hdeclare
  refine line?_eq ?_ _
  have hdepth := depth_eq_of_kinds (kinds_of_declare hdeclare)
  exact hdepth ▸ h

/-- The brace of a loop is emitted without a crash. -/
theorem openLoop?_eq (h : indent * e.scopes.depth < 2 ^ 64) (header : LoopHeader) :
    e.openLoop? deny indent header = (e.openLoop deny header).mapError some := by
  rw [openLoop?, openLoop]
  cases header.bound with
  | none => rfl
  | some bound =>
    simp only [enter?_eq h, ok_bind]
    cases header.declares with
    | none => rfl
    | some own => simp only [declare?_eq, mapError_liftM]

/-- An opening brace is emitted without a crash where a line has room one block deeper, since the
main block adds its first line at once. -/
theorem openBlock?_eq (h : indent * (e.scopes.depth + 1) < 2 ^ 64) :
    e.openBlock? deny indent = (e.openBlock deny).mapError some := by
  have hline := room_of_deeper h
  unfold openBlock? openBlock
  cases e.pending with
  | none => exact enter?_eq (e := { e with pending := none }) hline _ _
  | some header =>
    cases header with
    | main => exact openMain?_eq (e := { e with pending := none }) h
    | block kind text inline =>
      cases inline with
      | true => rfl
      | false => exact enter?_eq (e := { e with pending := none }) hline _ _
    | loop header => exact openLoop?_eq (e := { e with pending := none }) hline header

/-- A block is closed by going back to the scopes around it, which stand in fewer blocks. -/
theorem closeBlock?_eq (h : indent * e.scopes.depth < 2 ^ 64) (position : Position) :
    e.closeBlock? indent position = (e.closeBlock position).mapError some := by
  have hbefore : e.endMain? indent =
      .ok (if e.scopes.current.kind = .main then e.line "return 0;" else e) := by
    rw [endMain?, Scopes.head?_all, demand_some_bind]
    split
    · exact line?_eq h _
    · rfl
  have hscopes : (if e.scopes.current.kind = .main then e.line "return 0;" else e).scopes =
      e.scopes := by
    split <;> rfl
  have hleave : (e.scopes.leave.mapError some).mapError
        (Option.map fun v => Failure.violation (v.orAt position)) =
      (liftM (e.scopes.leave.mapError (·.orAt position)) : Except Failure _).mapError some := by
    rw [liftM_violation]
    cases e.scopes.leave <;> rfl
  rw [closeBlock?, closeBlock, hbefore, ok_bind, hscopes, Scopes.leave?_eq, hleave,
    Sprout.mapError_bind]
  refine bind_congr_of_ok ?_
  rintro ⟨scope, scopes⟩ hleft
  rw [mapError_eq_ok_iff, liftM_violation_eq_ok_iff, mapError_eq_ok_iff] at hleft
  have hinner : indent * scopes.depth ≤ indent * e.scopes.depth := by
    refine Nat.mul_le_mul_left indent ?_
    have hdepth := Scopes.depth_of_leave hleft
    omega
  dsimp only
  rw [line?_eq (by exact lt_of_le_of_lt hinner h)]
  rfl

variable {closed : Option Scope.Kind}

/-- A statement of each kind is emitted inside the domains of its own operations. Only the kinds
that hold expressions look at their tokens by index. -/
theorem dispatch?_eq
    (hlead : s.kind = .declaration ∨ s.kind = .initialization →
      s.lead.kind = .keyword .var ∨ s.lead.kind = .keyword .const)
    (hs : s.StandsIn Position.Fits) (h : indent * (e.scopes.depth + 1) < 2 ^ 64) :
    dispatch? deny indent closed e s = (dispatch deny closed e s).mapError some := by
  have hline := room_of_deeper h
  rw [dispatch?, dispatch]
  cases hkind : s.kind with
  | declaration | initialization =>
    rcases hlead (by simp [hkind]) with hword | hword <;> exact declaration?_eq hword hs hline
  | main => rfl
  | bound => exact clause?_eq hs .bound
  | step => exact clause?_eq hs .step
  | operation => exact operation?_eq hs hline
  | assignment => exact assignment?_eq hs hline
  | header => exact header?_eq hs
  | alternative => exact alternative?_eq hs closed
  | jump => exact jump?_eq hline
  | result => exact result?_eq hs hline
  | opening => exact openBlock?_eq h
  | closing => exact closeBlock?_eq hline s.position

/-- A statement is emitted inside the domains of all operations, as long as a line may stand one block
deeper. -/
theorem step?_eq
    (hlead : s.kind = .declaration ∨ s.kind = .initialization →
      s.lead.kind = .keyword .var ∨ s.lead.kind = .keyword .const)
    (hs : s.StandsIn Position.Fits) (h : indent * (e.scopes.depth + 1) < 2 ^ 64) :
    e.step? deny indent s = (e.step deny s).mapError some := by
  rw [step?, step]
  split
  · rfl
  · rw [Scopes.depth?_eq, demand_some_bind]
    split
    · rfl
    · exact dispatch?_eq hlead hs h

/-- A line is added as if it had no indent, or adding it crashes. -/
theorem line?_below (e : Emission) (text : String) :
    Below (e.line? indent text) (e.line? 0 text) := by
  have hroom : 0 * e.scopes.depth < 2 ^ 64 := by simp
  rw [line?_eq hroom, line?]
  cases e.indentation? indent with
  | none => exact .inl rfl
  | some room => exact .refl _

/-- Lines are added as if there was no indent, or adding them crashes. -/
theorem emit?_below (e : Emission) (lines : List Line) :
    Below (e.emit? indent lines) (e.emit? 0 lines) := by
  have hroom : 0 * e.scopes.depth < 2 ^ 64 := by simp
  rw [emit?_eq hroom, emit?]
  cases e.indentation? indent with
  | none => exact .inl rfl
  | some room => exact .refl _

/-- A declaration depends on the indent by the room for its lines only. -/
theorem declaration?_below (e : Emission) (s : Statement) :
    Below (e.declaration? deny indent s) (e.declaration? deny 0 s) := by
  refine .bind (.refl _) fun d => .bind (.refl _) fun _ => .bind (.refl _) fun (plan, e₁) => ?_
  exact .bind (.refl _) fun e₂ => emit?_below e₂ plan.lines

/-- An assignment depends on the indent by the room for its lines only. -/
theorem assignment?_below (e : Emission) (s : Statement) :
    Below (e.assignment? deny indent s) (e.assignment? deny 0 s) :=
  .bind (.refl _) fun _ => .bind (.refl _) fun (lines, e₁) => emit?_below e₁ lines

/-- Expressions that are evaluated for their effect depend on the indent by the room for their lines
only. -/
theorem operation?_below (e : Emission) (s : Statement) :
    Below (e.operation? deny indent s) (e.operation? deny 0 s) :=
  .bind (.refl _) fun _ => .bind (.refl _) fun (lines, e₁) => emit?_below e₁ lines

/-- A `break` or a `continue` depends on the indent by the room for its line only. -/
theorem jump?_below (e : Emission) (s : Statement) : Below (e.jump? indent s) (e.jump? 0 s) := by
  refine .bind (.refl _) fun keyword => ?_
  cases s.tokens[1]? with
  | some extra => exact .refl _
  | none =>
    dsimp only
    split
    · exact line?_below e _
    · exact .refl _

/-- A `return` depends on the indent by the room for its line only. -/
theorem result?_below (e : Emission) (s : Statement) :
    Below (e.result? indent s) (e.result? 0 s) := by
  refine .bind (.refl _) fun keyword => ?_
  split
  · exact .bind (.refl _) fun rest => .bind (.refl _) fun text => line?_below e _
  · exact .refl _

/-- Opening a block depends on the indent by the room for its first line only. -/
theorem enter?_below (e : Emission) (kind : Scope.Kind) (text : String) :
    Below (e.enter? indent kind text) (e.enter? 0 kind text) :=
  .bind (line?_below e text) fun _ => .refl _

/-- The brace of the main block depends on the indent by the room for its two lines only. -/
theorem openMain?_below (e : Emission) : Below (e.openMain? indent) (e.openMain? 0) :=
  .bind (enter?_below e _ _) fun _ => .bind (.refl _) fun _ => line?_below _ _

/-- The brace of a loop depends on the indent by the room for its line only. -/
theorem openLoop?_below (e : Emission) (header : LoopHeader) :
    Below (e.openLoop? deny indent header) (e.openLoop? deny 0 header) := by
  unfold openLoop?
  cases header.bound with
  | none => exact .refl _
  | some bound => exact .bind (enter?_below e _ _) fun _ => .refl _

/-- An opening brace depends on the indent by the room for its lines only. -/
theorem openBlock?_below (e : Emission) :
    Below (e.openBlock? deny indent) (e.openBlock? deny 0) := by
  unfold openBlock?
  cases e.pending with
  | none => exact enter?_below _ _ _
  | some header =>
    cases header with
    | main => exact openMain?_below _
    | block kind text inline =>
      cases inline with
      | true => exact .refl _
      | false => exact enter?_below _ _ _
    | loop header => exact openLoop?_below _ header

/-- A closing brace depends on the indent by the room for its lines only. -/
theorem closeBlock?_below (e : Emission) (position : Position) :
    Below (e.closeBlock? indent position) (e.closeBlock? 0 position) := by
  have hend : Below (e.endMain? indent) (e.endMain? 0) := by
    refine .bind (.refl _) fun current => ?_
    split
    · exact line?_below e _
    · exact .refl _
  exact .bind hend fun _ => .bind (.refl _) fun _ => .bind (line?_below _ _) fun _ => .refl _

/-- A statement of each kind depends on the indent by the room for its lines only. -/
theorem dispatch?_below (e : Emission) (s : Statement) :
    Below (dispatch? deny indent closed e s) (dispatch? deny 0 closed e s) := by
  unfold dispatch?
  cases s.kind with
  | main | header | alternative | bound | step => exact .refl _
  | declaration | initialization => exact declaration?_below e s
  | operation => exact operation?_below e s
  | assignment => exact assignment?_below e s
  | jump => exact jump?_below e s
  | result => exact result?_below e s
  | opening => exact openBlock?_below e
  | closing => exact closeBlock?_below e s.position

/-- Whatever the indent is, a statement is emitted as if there was none, or the room for an indent
overflows. The innermost scope is always there, since the global one is never closed. -/
theorem step?_below (e : Emission) (s : Statement) :
    Below (e.step? deny indent s) (e.step? deny 0 s) := by
  unfold step?
  split
  · exact .refl _
  · refine .bind (.refl _) fun depth => ?_
    split
    · exact .refl _
    · exact dispatch?_below _ s

end Emission

end Sprout
