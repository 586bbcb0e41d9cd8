import Sprout.Emission.Unpacking

namespace Sprout

/-- A declaration as it is written: `var a, b: T = e` or `const N: T = e`. -/
structure Declaration where
  keyword : Token
  /-- The first name declared. -/
  name : Token
  /-- The other names. -/
  others : List Token
  type : Option Expr
  initializers : List Expr

/-- A name that a declaration adds to its scope. -/
structure Binding where
  name : Token
  type : Ty
  constant : Option Constant

/-- What a declaration amounts to. -/
structure Declaration.Plan where
  lines : List Line
  bindings : List Binding

namespace Declaration

/-- All names of a declaration. -/
def names (d : Declaration) : List Token :=
  d.name :: d.others

/-- Whether a declaration is one of constants. -/
def isConstant (d : Declaration) : Bool :=
  d.keyword.kind = .keyword .const

/-- The names in a list of pieces, each of which must be a single identifier. -/
def readNames (keyword : Token) : List (List Token) → Except Violation (List Token)
  | [] => .ok []
  | piece :: pieces =>
    match piece with
    | [t] =>
      if t.kind = .identifier then do
        let others ← readNames keyword pieces
        .ok (t :: others)
      else .error (t.blame .nameExpected)
    | _ => .error ((piece.head?.getD keyword).blame .nameExpected)

/-- Cuts a run at its first token of a kind outside brackets: what stands before it, and the token
with what stands behind it, if there is one. -/
def cut (kind : Token.Kind) (run : List Token) : List Token × Option (Token × List Token) :=
  match Token.splitTop (· = kind) 0 run with
  | none => (run, none)
  | some (before, mid, after) => (before, some (mid, after))

/-- The type behind a colon. -/
def readType : Option (Token × List Token) → Except (Defect Malformed) (Option Expr)
  | none => .ok none
  | some (colon, run) => do
    let run ← require .type colon run
    let type ← Expr.parseType run
    .ok (some type)

/-- The initializers behind an equal sign. -/
def readInitializers : Option (Token × List Token) → Except (Defect Malformed) (List Expr)
  | none => .ok []
  | some (equal, run) => do
    let run ← require .initializer equal run
    Expr.parseList run

/-- Reads a declaration. -/
def read (s : Statement) : Except Failure Declaration := do
  let (head, initial) := cut .equal s.rest
  let (named, typed) := cut .colon head
  match ← readNames s.lead (Token.splitCommas named) with
  | [] => (Fault.nameExpectedAfter s.lead.lexeme).refuse s.lead.position
  | name :: others =>
    let type ← readType typed
    let initializers ← readInitializers initial
    .ok { keyword := s.lead, name, others, type, initializers }

/-- The first initializer that reads a given name. -/
def reader? (d : Declaration) (name : String) : Option Expr :=
  d.initializers.find? (·.mentions name)

/-- Refuses initializers that read a name the declaration hides. -/
def checkShadowing (scopes : Scopes) (d : Declaration) : Except Violation Unit :=
  let hidden := d.names.filter (scopes.isShadowing ·.lexeme)
  match hidden.findSome? fun name => (d.reader? name.lexeme).map (name, ·) with
  | none => .ok ()
  | some (name, e) => .error ((Fault.initializerShadowed name.lexeme).blame e.position)

/-- The line that declares a name with the default value of its type. -/
def defaultLine (type : Ty) (name : Token) : Line :=
  .flat (type.target ++ " " ++ Target.name name.lexeme ++ "\x7b\x7d;")

/-- A declaration without initializers. -/
def planDefault (d : Declaration) (type : Option Ty) : Check Plan :=
  if d.isConstant then (Fault.constantUninitialized d.name.lexeme).raise d.keyword.position
  else
    match type with
    | none => (Fault.typeMissing d.name.lexeme).raise d.keyword.position
    | some type =>
      pure
        { lines := d.names.map (defaultLine type)
          bindings := d.names.map fun name => ⟨name, type, none⟩ }

/-- A declaration whose names take the values of one call. -/
def planUnpacked (d : Declaration) (type : Option Ty) (call : Typed) (members : List Ty)
    (position : Position) : Check Plan :=
  if d.isConstant then Fault.multiReturnConstant.raise d.keyword.position
  else do
    let bindings := (d.names.zip members).map fun (name, member) =>
      (⟨name, type.getD member, none⟩ : Binding)
    let targets := bindings.map fun b => (Target.name b.name.lexeme, b.type)
    let block ← unpack call members targets position
    pure { lines := bindings.map (fun b => defaultLine b.type b.name) ++ block, bindings }

/-- The type of a name that is declared without one. -/
def inferredType (value : Typed) (name : String) (position : Position) : Check Ty :=
  match value.type with
  | .primitive .void => (Fault.voidInitializer name).raise position
  | .tuple _ => (Fault.multiReturnInitializer name).raise position
  | type => pure type

/-- Types the initializers, in order. -/
def initialValues (scopes : Scopes) (type : Option Ty) : List Expr → Check (List (Expr × Typed))
  | [] => pure []
  | e :: es => do
    let value ← e.initializer scopes type
    let others ← initialValues scopes type es
    pure ((e, value) :: others)

/-- The line and the binding of a name with its initializer. -/
def planName (isConstant : Bool) (declared : Option Ty) (name : Token) (e : Expr) (value : Typed) :
    Check (Line × Binding) := do
  let type ← match declared with
    | some type => pure type
    | none => inferredType value name.lexeme e.position
  let text ← value.converted type e.position
  let assigned := type.target ++ " " ++ Target.name name.lexeme ++ " = " ++ text ++ ";"
  if isConstant then
    match value.constant.bind (·.convert type) with
    | none => (Fault.initializerNotConstant name.lexeme).raise e.position
    | some folded => pure (.flat ("const " ++ assigned), ⟨name, type, some folded⟩)
  else if value.isNull then pure (defaultLine type name, ⟨name, type, none⟩)
  else pure (.flat assigned, ⟨name, type, none⟩)

/-- The lines and bindings of names with their initializers. -/
def planNames (isConstant : Bool) (declared : Option Ty) :
    List (Token × Expr × Typed) → Check Plan
  | [] => pure { lines := [], bindings := [] }
  | (name, e, value) :: others => do
    let (line, binding) ← planName isConstant declared name e value
    let plan ← planNames isConstant declared others
    pure { lines := line :: plan.lines, bindings := binding :: plan.bindings }

/-- A declaration with initializers of its own. A single initializer is shared by all names. -/
def planInitialized (scopes : Scopes) (d : Declaration) (type : Option Ty) (first : Expr) :
    Check Plan := do
  let count := d.initializers.length
  if count ≠ 1 && count ≠ d.names.length then
    (Fault.initializerCount (.of count d.names.length)).raise first.position
  else
    let values ← initialValues scopes type d.initializers
    planNames d.isConstant type (d.names.zip (spread d.names.length values))

/-- What a declaration amounts to in the open scopes. -/
def plan (scopes : Scopes) (d : Declaration) : Check Plan := do
  let type ← match d.type with
    | none => pure none
    | some e => do
      let type ← e.resolveType scopes
      pure (some type)
  match d.initializers with
  | [] => d.planDefault type
  | first :: _ =>
    match ← unpackable? scopes d.names.length d.initializers with
    | some (call, members) => d.planUnpacked type call members first.position
    | none => d.planInitialized scopes type first

end Declaration

namespace Emission

/-- Adds the names of a declaration to the innermost scope. Names with a value are constants. -/
def bind (deny : Bool) (mutable : Bool) (e : Emission) : List Binding → Except Violation Emission
  | [] => .ok e
  | b :: others => do
    let symbol : Symbol := match b.constant with
      | some value => ⟨b.type, some value, false⟩
      | none => ⟨b.type, none, mutable⟩
    let e ← (e.declare deny b.name.lexeme symbol b.name.position).mapError
      (·.orAt b.name.position)
    bind deny mutable e others

/-- Emits a declaration. In the generated program a new name is visible in its own initializer
already, so an initializer may not read a name that the declaration hides. -/
def declaration (deny : Bool) (e : Emission) (s : Statement) : Except Failure Emission := do
  let d ← Declaration.read s
  d.checkShadowing e.scopes
  let (plan, e) ← e.settle deny (d.plan e.scopes)
  let e ← e.bind deny (!d.isConstant) plan.bindings
  return e.emit plan.lines

end Emission

end Sprout
