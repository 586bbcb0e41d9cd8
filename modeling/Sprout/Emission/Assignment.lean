import Sprout.Emission.Unpacking

namespace Sprout

/-- An assignment as it is written, `a, b = e, f` or a compound form such as `a += e`: targets,
operator and values, of which there is at least one each. -/
structure Assignment where
  operator : Token
  targets : List Expr
  values : List Expr

namespace Assignment

/-- Reads an assignment. -/
def read (s : Statement) : Except Failure Assignment :=
  match Token.splitTop Token.Kind.isAssignment 0 s.tokens with
  | none => .error (.violation (.unplaced .assignmentExpected))
  | some (before, operator, after) => do
    let targets ← Expr.parseList (← require .target operator before)
    let values ← Expr.parseList (← require .value operator after)
    return { operator, targets, values }

/-- Types the targets, which must be places that may be written. -/
def places (scopes : Scopes) : List Expr → Check (List Typed)
  | [] => pure []
  | e :: es => do
    let place ← e.value scopes
    if place.place.isNone then Fault.invalidTarget.raise e.position
    else
      .lift (place.checkModifiable e.position)
      let others ← places scopes es
      pure (place :: others)

/-- Refuses a number of values that is neither one nor the number of targets. -/
def checkCount (targets : Nat) (values : List Expr) : Check Unit :=
  match values with
  | first :: _ :: _ =>
    if values.length = targets then pure ()
    else (Fault.valueCount (.of values.length targets)).raise first.position
  | _ => pure ()

/-- The line that swaps two variables, when an assignment does just that. -/
def swap? (targets values : List Expr) (places : List Typed) : Check (Option Line) :=
  match targets, values, places with
  | [a, b], [c, d], [first, second] =>
    match a.name?, b.name?, c.name?, d.name? with
    | some left, some right, some x, some y =>
      if left ≠ right && left = y && right = x then
        if first.type = second.type then
          pure (some (.flat ("std::swap(" ++ first.text ++ ", " ++ second.text ++ ");")))
        else (Fault.swapTypes left right first.type second.type).raise a.position
      else pure none
    | _, _, _, _ => pure none
  | _, _, _ => pure none

/-- The lines of a plain assignment of one value to each place. -/
def plainLines (scopes : Scopes) : List (Typed × Expr) → Check (List Line)
  | [] => pure []
  | (place, e) :: others => do
    let value ← e.initializer scopes (some place.type)
    let text ← value.converted place.type e.position
    let lines ← plainLines scopes others
    pure (.flat (place.text ++ " = " ++ text ++ ";") :: lines)

/-- The text of a compound assignment that computes with `op`. -/
def compoundText (op : Arithmetic) (symbol : String) (place value : Typed) : String :=
  match op with
  | .mod => place.text ++ " = rt::mod(" ++ place.text ++ ", " ++ value.text ++ ");"
  | .pow =>
    place.text ++ " = static_cast<" ++ place.type.target ++ ">(rt::pow(" ++ place.text ++ ", " ++
      value.text ++ "));"
  | _ => place.text ++ " " ++ symbol ++ " " ++ value.text ++ ";"

/-- The line of a compound assignment to one place. Strings and characters can be added to a
string; everything else is arithmetic on numbers. -/
def compoundLine (op : Arithmetic) (symbol : String) (place value : Typed) (position : Position) :
    Check Line :=
  if op = .add && place.type = .str && (value.type = .str || value.type = .char) then
    pure (.flat (place.text ++ " += " ++ value.text ++ ";"))
  else if !place.type.isNumeric || !value.type.isNumeric then
    (Fault.operands symbol place.type value.type).raise position
  else if (op = .div || op = .mod) && place.type.isInteger && value.constant = some (.int 0) then
    Fault.divisionByZero.raise position
  else do
    let _ ← value.checkAssign place.type position
    pure (.flat (compoundText op symbol place value))

/-- The lines of a compound assignment to each place. -/
def compoundLines (scopes : Scopes) (op : Arithmetic) (symbol : String) :
    List (Typed × Expr) → Check (List Line)
  | [] => pure []
  | (place, e) :: others => do
    let value ← e.value scopes
    let line ← compoundLine op symbol place value e.position
    let lines ← compoundLines scopes op symbol others
    pure (line :: lines)

/-- The places of an assignment with the value that each takes. -/
def pairs (a : Assignment) (places : List Typed) : List (Typed × Expr) :=
  places.zip (spread places.length a.values)

/-- The lines of a plain assignment: a swap, an unpacked call, or one value per place. -/
def assignLines (scopes : Scopes) (a : Assignment) (places : List Typed) : Check (List Line) := do
  match ← swap? a.targets a.values places with
  | some line => pure [line]
  | none =>
    match ← unpackable? scopes places.length a.values, a.values with
    | some (call, members), first :: _ =>
      unpack call members (places.map fun p => (p.text, p.type)) first.position
    | _, _ =>
      checkCount places.length a.values
      plainLines scopes (a.pairs places)

/-- The lines of an assignment in the open scopes. -/
def lines (scopes : Scopes) (a : Assignment) : Check (List Line) := do
  let places ← places scopes a.targets
  match a.operator.kind with
  | .compound op =>
    checkCount places.length a.values
    compoundLines scopes op a.operator.lexeme (a.pairs places)
  | _ => a.assignLines scopes places

end Assignment

/-- The lines of expressions evaluated for their effect: steps, and calls that return nothing. -/
def operationLines (scopes : Scopes) : List Expr → Check (List Line)
  | [] => pure []
  | e :: es => do
    let typed ← e.value scopes
    if typed.isStep || (typed.isCall && typed.type.isVoid) then
      let others ← operationLines scopes es
      pure (.flat (typed.text ++ ";") :: others)
    else Fault.unusedValue.raise e.position

namespace Emission

/-- Emits an assignment. -/
def assignment (deny : Bool) (e : Emission) (s : Statement) : Except Failure Emission := do
  let a ← Assignment.read s
  let (lines, e) ← e.settle deny (a.lines e.scopes)
  return e.emit lines

/-- Emits expressions evaluated for their effect. -/
def operation (deny : Bool) (e : Emission) (s : Statement) : Except Failure Emission := do
  let es ← Expr.parseList s.tokens
  let (lines, e) ← e.settle deny (operationLines e.scopes es)
  return e.emit lines

end Emission

end Sprout
