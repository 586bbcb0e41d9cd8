import Sprout.Expr
import Sprout.Typed

namespace Sprout

namespace Typed

/-- A literal that is not a number. -/
def ofLiteral (literal : Literal) (position : Position) : Check Typed :=
  match literal with
  | .bool value =>
    pure
      { text := if value then "true" else "false"
        type := .bool
        constant := some (.bool value) }
  | .char value =>
    if value.toNat < 128 then
      pure { text := Target.charLiteral value, type := .char, constant := some (.char value) }
    else Fault.characterRange.raise position
  | .str value =>
    pure
      { text := Target.stringLiteral value.toList
        type := .str
        constant := some (.str value) }

end Typed

namespace Expr

mutual
/-- Types an expression used as a value, by a walk over its tree against the open scopes. Array
literals and `null` are no values; they are for `initializer` alone. -/
def value (scopes : Scopes) : Expr → Check Typed
  | number n position => Typed.ofNumber n position
  | literal l position => Typed.ofLiteral l position
  | null position => Fault.nullValue.raise position
  | array _ position => Fault.arrayValue.raise position
  | ident name position => Typed.ofName scopes name position
  | call name args position => do
    let args ← values scopes args
    Typed.callFunction name args position
  | index receiver offset => do
    let whole ← value scopes receiver
    let selected ← value scopes offset
    Typed.elementAt whole selected offset.position
  | field receiver name position => do
    let whole ← value scopes receiver
    (Fault.noMember whole.type name).raise position
  | method receiver name args position => do
    let whole ← value scopes receiver
    let args ← values scopes args
    Typed.callMethod whole name args position
  | typeName name _ position => (Fault.typeValue name).raise position
  | convert name [] args position => do
    let args ← values scopes args
    Typed.convert name args position
  | convert _ (_ :: _) _ position => Fault.arrayConversion.raise position
  | unary op inner position => do
    let inner ← value scopes inner
    Typed.applyUnary op inner position
  | stepBefore op inner position => do
    let inner ← value scopes inner
    Typed.applyStep op false inner position
  | stepAfter op inner position => do
    let inner ← value scopes inner
    Typed.applyStep op true inner position
  | binary op left right position => do
    let left ← value scopes left
    let right ← value scopes right
    Typed.applyBinary op left right position
/-- Types several expressions used as values, in order. -/
def values (scopes : Scopes) : List Expr → Check (List Typed)
  | [] => pure []
  | e :: es => do
    let head ← value scopes e
    let tail ← values scopes es
    pure (head :: tail)
end

/-- The size of an array: a whole number above zero that is known and fits 64 bits. -/
def dimension (scopes : Scopes) (size : Expr) : Check Nat := do
  let typed ← value scopes size
  match typed.constant with
  | some (.int n) =>
    if !typed.type.isInteger then Fault.sizeNotConstant.raise size.position
    else if 0 < n && Primitive.u64.holdsInteger n then pure n.toNat
    else Fault.sizeNotPositive.raise size.position
  | _ => Fault.sizeNotConstant.raise size.position

/-- The array type with the given dimensions around `base`. Sizes are worked out from the innermost
outwards. -/
def dimensioned (scopes : Scopes) (base : Ty) : List (Option Expr) → Check Ty
  | [] => pure base
  | level :: inner => do
    let element ← dimensioned scopes base inner
    match level with
    | none => pure (.array element none)
    | some size =>
      let size ← dimension scopes size
      pure (.array element (some size))

/-- The type that an expression names. -/
def resolveType (scopes : Scopes) : Expr → Check Ty
  | typeName .void _ position => Fault.voidType.raise position
  | typeName name dimensions _ => dimensioned scopes (.primitive name) dimensions
  | other => Fault.notAType.raise other.position

/-- The element type of an array literal, taking one more element of type `next` into account:
the same type, or the common type of two numbers. -/
def joinElement (current : Option Ty) (next : Ty) (position : Position) : Check Ty :=
  match current with
  | none => pure next
  | some current =>
    if current = next then pure current
    else
      match current, next with
      | .primitive a, .primitive b =>
        match Primitive.common a b with
        | some common => pure (.primitive common)
        | none => (Fault.mixedElements current next).raise position
      | _, _ => (Fault.mixedElements current next).raise position

/-- The type of the elements that a target of an array literal asks for, and the type of the
whole. -/
def arrayTarget (target : Ty) (count : Nat) (position : Position) : Check (Ty × Ty) :=
  match target with
  | .array element none => pure (element, target)
  | .array element (some size) =>
    if size = count then pure (element, target)
    else (Fault.elementCount target size count).raise position
  | other => (Fault.arrayTarget other).raise position

mutual
/-- Types what stands behind an equal sign, where `null` and array literals are allowed too. With a
target, the elements of a literal are converted to its element type; without one, the literal takes
the type of its elements. -/
def initializer (scopes : Scopes) (target : Option Ty) : Expr → Check Typed
  | null position =>
    match target with
    | some _ => pure { text := "\x7b\x7d", type := .null }
    | none => Fault.nullType.raise position
  | array elements position => do
    let (element, type) ← match target with
      | some type => arrayTarget type elements.length position
      | none => do
        match ← elementType scopes none elements with
        | none => Fault.emptyArrayType.raise position
        | some element => pure (element, .array element (some elements.length))
    let texts ← elementTexts scopes element elements
    pure { text := "\x7b" ++ ", ".intercalate texts ++ "\x7d", type }
  | other => value scopes other
/-- The common type of the elements of an array literal, joined to the type `current` of those
before them. -/
def elementType (scopes : Scopes) (current : Option Ty) : List Expr → Check (Option Ty)
  | [] => pure current
  | e :: es => do
    let typed ← initializer scopes none e
    let joined ← joinElement current typed.type e.position
    elementType scopes (some joined) es
/-- The texts of the elements of an array literal, converted to their type. -/
def elementTexts (scopes : Scopes) (element : Ty) : List Expr → Check (List String)
  | [] => pure []
  | e :: es => do
    let typed ← initializer scopes (some element) e
    let text ← typed.converted element e.position
    let others ← elementTexts scopes element es
    pure (text :: others)
end

end Expr

end Sprout
