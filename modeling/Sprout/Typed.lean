import Sprout.Builtin
import Sprout.Checked
import Sprout.Number
import Sprout.Scope
import Sprout.Target.Literal
import Sprout.Target.Name

namespace Sprout

/-- A place that can be assigned to, by the variable at its root. -/
structure Place where
  name : String
  mutable : Bool
  constant : Bool
deriving DecidableEq, Repr

/-- The precedence of a text that never needs parentheses. -/
def atomPrecedence : Nat := 255

/-- An expression that is ready to be emitted: its text in the generated program, its type, its
value if that is known, and the variable it stands for if it is a place. -/
structure Typed where
  text : String
  type : Ty
  constant : Option Constant := none
  isStep : Bool := false
  isCall : Bool := false
  place : Option Place := none
  precedence : Nat := atomPrecedence
deriving DecidableEq, Repr

/-- A check in which a violation ends everything. -/
abbrev Check := Checked Violation

/-- Refuses for a fault at a position. -/
def Fault.raise {α : Type} (fault : Fault) (position : Position) : Check α :=
  .fail (fault.blame position)

/-- Warns that a conversion may lose information. -/
def warnPrecision (source target : Ty) (position : Position) : Check Unit :=
  .warn (.warning .precisionLoss
    ("precision loss converting '" ++ source.render ++ "' to '" ++ target.render ++ "'") position)

namespace Typed

/-- The text as an operand of an operator of the given precedence. -/
def operand (e : Typed) (precedence : Nat) : String :=
  if e.precedence < precedence then "(" ++ e.text ++ ")" else e.text

/-- Whether the expression is `null`. -/
def isNull (e : Typed) : Bool :=
  e.type = .null

/-- Refuses to write through a constant or a read-only variable. -/
def checkModifiable (e : Typed) (position : Position) : Except Violation Unit :=
  match e.place with
  | none => .ok ()
  | some place =>
    if place.constant then .error ((Fault.constantModified place.name).blame position)
    else if !place.mutable then .error ((Fault.readOnlyModified place.name).blame position)
    else .ok ()

/-- Whether the expression is a known whole number that fits the numeric type `target`. -/
def constantFits (e : Typed) (target : Ty) : Bool :=
  match target, e.constant with
  | .primitive p, some (.int value) => if p.isInteger then p.holdsInteger value else p.isFloating
  | _, _ => false

/-- Checks that the expression may be stored in a place of type `target`. It warns of narrowing,
except for whole numbers that are known to fit. -/
def checkAssign (e : Typed) (target : Ty) (position : Position) : Check Assignability :=
  if e.isNull then pure .exact
  else
    match target.assign e.type with
    | .incompatible => (Fault.incompatible e.type target).raise position
    | .narrowing => do
      if !e.constantFits target then warnPrecision e.type target position
      pure .narrowing
    | other => pure other

/-- The text of the expression converted to `target`, with a cast where the conversion would not be
taken without one. -/
def converted (e : Typed) (target : Ty) (position : Position) : Check String := do
  let fit ← e.checkAssign target position
  if fit ≠ .exact && target.isNumeric && !e.constantFits target then
    pure ("static_cast<" ++ target.target ++ ">(" ++ e.text ++ ")")
  else pure e.text

/-- A numeric literal. -/
def ofNumber (number : Number) (position : Position) : Check Typed :=
  let typed (constant : Constant) : Typed :=
    { text := number.target, type := .primitive number.type, constant := some constant }
  match number with
  | .integer _ value => pure (typed (.int value))
  | .single value =>
    if value.isFinite then pure (typed (.float (Floating.Format.double.recast value)))
    else Fault.numberRange.raise position
  | .double value =>
    if value.isFinite then pure (typed (.float value)) else Fault.numberRange.raise position

/-- A name, which stands for a place. -/
def ofName (scopes : Scopes) (name : String) (position : Position) : Check Typed :=
  match scopes.lookup name with
  | none => (Fault.unknownIdentifier name).raise position
  | some symbol =>
    pure
      { text := Target.name name
        type := symbol.type
        constant := symbol.constant
        place := some ⟨name, symbol.mutable, symbol.constant.isSome⟩ }

/-- The type of what an index into a value of some type selects. -/
def elementType? : Ty → Option Ty
  | .array element _ => some element
  | .primitive .str => some .char
  | _ => none

/-- Whether a known index lies outside a value of some type. The size of vectors and strings is not
known. -/
def isOutside (index : Int) (type : Ty) : Bool :=
  index < 0 ||
    match type with
    | .array _ (some size) => (size : Int) ≤ index
    | _ => false

/-- The element of the receiver that `offset` selects; it is a place if the receiver is. -/
def elementAt (receiver offset : Typed) (position : Position) : Check Typed :=
  if !offset.type.isInteger then (Fault.notAnIndex offset.type).raise position
  else
    match elementType? receiver.type with
    | none => (Fault.notIndexable receiver.type).raise position
    | some element =>
      let selected : Typed :=
        { text := receiver.operand atomPrecedence ++ ".at(" ++ offset.text ++ ")"
          type := element
          place := receiver.place }
      match offset.constant with
      | some (.int index) =>
        if isOutside index receiver.type then
          (Fault.outOfBounds index receiver.type).raise position
        else pure selected
      | _ => pure selected

/-- Warns of each argument that fits its parameter, the element type of the receiver, only by
narrowing. -/
def warnNarrowed (element : Option Ty) (args : List Typed) (position : Position) :
    List Nat → Check Unit
  | [] => pure ()
  | index :: others => do
    match element, args[index]? with
    | some element, some arg =>
      if !arg.constantFits element then warnPrecision arg.type element position
    | _, _ => pure ()
    warnNarrowed element args position others

/-- The text of arguments between commas. -/
def argumentText (args : List Typed) : String :=
  ", ".intercalate (args.map Typed.text)

/-- A call that is bound already. -/
def call (receiver : Option Typed) (resolved : Resolved) (args : List Typed)
    (position : Position) : Check Typed := do
  warnNarrowed (receiver.bind (·.type.element?)) args position resolved.narrowed
  let callee := match receiver with
    | none => resolved.target
    | some receiver => receiver.operand atomPrecedence ++ "." ++ resolved.target
  pure
    { text := callee ++ "(" ++ argumentText args ++ ")"
      type := resolved.result
      isCall := true }

/-- Binds a call and reports a failure at its position. -/
def bindCall (receiver : Option Typed) (name : String) (args : List Typed) (position : Position) :
    Check Resolved :=
  (Checked.lift (Signature.resolve ⟨receiver.map Typed.type, name, args.map Typed.type⟩)).mapError
    (·.orAt position)

/-- A call of a function by its name. -/
def callFunction (name : String) (args : List Typed) (position : Position) : Check Typed := do
  let resolved ← bindCall none name args position
  call none resolved args position

/-- A call of a method. The method `at` selects an element, as an index does. -/
def callMethod (receiver : Typed) (name : String) (args : List Typed) (position : Position) :
    Check Typed :=
  if name = "at" then
    match args with
    | [offset] => elementAt receiver offset position
    | _ => Fault.elementArity.raise position
  else do
    let resolved ← bindCall (some receiver) name args position
    if resolved.mutates then .lift (receiver.checkModifiable position)
    call (some receiver) resolved args position

/-- A conversion to a primitive type. -/
def convert (target : Primitive) (args : List Typed) (position : Position) : Check Typed := do
  let resolved ← (Checked.lift (target.resolveConversion (args.map Typed.type))).mapError
    (·.orAt position)
  pure
    { text := resolved.target ++ "(" ++ argumentText args ++ ")"
      type := resolved.result
      constant := (args.head?.bind Typed.constant).bind (·.convert resolved.result) }

/-- What a unary operator makes of a known value. -/
def foldUnary : UnaryOp → Constant → Option Constant
  | .plus, value => some value
  | .minus, .int value => some (.int (Constant.negate value))
  | .minus, .float value => some (.float value.neg)
  | .not, .bool value => some (.bool !value)
  | _, _ => none

/-- A unary operator. An operand that starts with a sign gets parentheses, so that two signs do not
read as a step. -/
def applyUnary (op : UnaryOp) (inner : Typed) (position : Position) : Check Typed :=
  let valid := match op with
    | .not => inner.type = .bool
    | _ => inner.type.isNumeric
  if !valid then (Fault.operand op.symbol inner.type).raise position
  else
    let text := inner.operand unaryPrecedence
    let signed := text.toList.head? = some '-' || text.toList.head? = some '+'
    pure
      { text := op.symbol ++ (if signed then "(" ++ text ++ ")" else text)
        type := inner.type
        constant := inner.constant.bind (foldUnary op)
        precedence := unaryPrecedence }

/-- A step in front of its operand, or behind it if `after` is set. -/
def applyStep (op : StepOp) (after : Bool) (inner : Typed) (position : Position) : Check Typed :=
  if inner.place.isNone then (Fault.stepOperand op).raise position
  else do
    .lift (inner.checkModifiable position)
    if !inner.type.isNumeric then (Fault.operand op.symbol inner.type).raise position
    else
      pure
        { text := if after then inner.text ++ op.symbol else op.symbol ++ inner.text
          type := inner.type
          isStep := true
          precedence := if after then atomPrecedence else unaryPrecedence }

/-- Whether two types can be compared by an operator. -/
def areComparable (op : Comparison) (left right : Ty) : Bool :=
  (left.isNumeric && right.isNumeric) ||
    (left = right && (left = .char || left = .str)) ||
    (left = .bool && right = .bool && (op = .eq || op = .ne))

/-- The type of the result of a binary operator; nothing if it cannot be applied. -/
def resultType (op : BinaryOp) (left right : Ty) : Option Ty :=
  match op with
  | .logical _ => if left = .bool && right = .bool then some .bool else none
  | .comparison op => if areComparable op left right then some .bool else none
  | .arithmetic op =>
    if op = .add && left = .str && (right = .str || right = .char) then some .str
    else
      match left, right with
      | .primitive a, .primitive b =>
        (Primitive.common a b).map fun common =>
          if op = .pow then (if common.isInteger then .i64 else .f64) else .primitive common
      | _, _ => none

/-- The text of a binary operator whose result has type `type`, and its precedence. Remainders and
powers are calls. -/
def binaryText (op : BinaryOp) (type : Ty) (left right : Typed) : String × Nat :=
  match op with
  | .arithmetic .mod => ("rt::mod(" ++ left.text ++ ", " ++ right.text ++ ")", atomPrecedence)
  | .arithmetic .pow =>
    let call := "rt::pow(" ++ left.text ++ ", " ++ right.text ++ ")"
    (if type.isInteger then "static_cast<int64_t>(" ++ call ++ ")" else call, atomPrecedence)
  | _ =>
    (left.operand op.precedence ++ " " ++ op.symbol ++ " " ++ right.operand (op.precedence + 1),
      op.precedence)

/-- Whether an operator divides by a whole number that is known to be zero. -/
def dividesByZero (op : BinaryOp) (type : Ty) (right : Typed) : Bool :=
  (op = .arithmetic .div || op = .arithmetic .mod) && type.isInteger &&
    right.constant = some (.int 0)

/-- A binary operator. The value is known if both operands are known and the result fits its
type. -/
def applyBinary (op : BinaryOp) (left right : Typed) (position : Position) : Check Typed :=
  match resultType op left.type right.type with
  | none => (Fault.operands op.symbol left.type right.type).raise position
  | some type =>
    if dividesByZero op type right then Fault.divisionByZero.raise position
    else
      let (text, precedence) := binaryText op type left right
      let constant := match left.constant, right.constant with
        | some a, some b => (Constant.fold op a b).bind (·.convert type)
        | _, _ => none
      pure { text, type, constant, precedence }

end Typed

end Sprout
