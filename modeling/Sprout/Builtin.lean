import Sprout.Fault

namespace Sprout

/-- What a builtin is called on: nothing, an array of either kind, a vector, or a string. -/
inductive Builtin.Receiver
  | free
  | array
  | vector
  | str
deriving DecidableEq, Repr

/-- The values that a parameter accepts: any that can be stored, integers, numbers, or what the
elements of the receiver accept. -/
inductive Builtin.Param
  | any
  | int
  | num
  | element
deriving DecidableEq, Repr

/-- What a builtin returns; `element` is the element type of the receiver, and `pair` two `i64`
values. -/
inductive Builtin.Returns
  | void
  | str
  | i64
  | u64
  | f64
  | element
  | pair
deriving DecidableEq, Repr

/-- A function or method that every program may call: what it takes and returns, and what it is
called in the generated text. If it is `variadic`, any number of further arguments of the last kind
may follow. -/
structure Builtin where
  name : String
  receiver : Builtin.Receiver
  params : List Builtin.Param
  variadic : Option Builtin.Param
  returns : Builtin.Returns
  target : String
deriving DecidableEq, Repr

namespace Builtin

/-- All builtins, in the order in which calls are tried on them. -/
def all : List Builtin :=
  [⟨"print", .free, [], some .any, .void, "rt::print"⟩,
    ⟨"println", .free, [], some .any, .void, "rt::println"⟩,
    ⟨"read", .free, [], none, .str, "rt::read"⟩,
    ⟨"mod", .free, [.int, .int], none, .i64, "rt::mod"⟩,
    ⟨"mod", .free, [.num, .num], none, .f64, "rt::mod"⟩,
    ⟨"pow", .free, [.num, .num], none, .f64, "rt::pow"⟩,
    ⟨"sqrt", .free, [.num], none, .f64, "std::sqrt"⟩,
    ⟨"abs", .free, [.int], none, .i64, "rt::abs"⟩,
    ⟨"abs", .free, [.num], none, .f64, "rt::abs"⟩,
    ⟨"min", .free, [.int, .int], none, .i64, "std::min<int64_t>"⟩,
    ⟨"min", .free, [.num, .num], none, .f64, "std::min<double>"⟩,
    ⟨"max", .free, [.int, .int], none, .i64, "std::max<int64_t>"⟩,
    ⟨"max", .free, [.num, .num], none, .f64, "std::max<double>"⟩,
    ⟨"divmod", .free, [.int, .int], none, .pair, "rt::divmod"⟩,
    ⟨"len", .array, [], none, .u64, "len"⟩,
    ⟨"len", .str, [], none, .u64, "size"⟩,
    ⟨"at", .array, [.int], none, .element, "at"⟩,
    ⟨"push", .vector, [.element], none, .void, "push"⟩,
    ⟨"pop", .vector, [], none, .element, "pop"⟩,
    ⟨"clear", .vector, [], none, .void, "clear"⟩]

/-- The builtins of a name, in order. -/
def named (name : String) : List Builtin :=
  all.filter (·.name = name)

/-- Whether a builtin for `receiver` can be called on a value of the given type, or on nothing. -/
def Receiver.accepts : Receiver → Option Ty → Bool
  | free, none => true
  | array, some type => type.isFixed || type.isVector
  | vector, some type => type.isVector
  | str, some type => type = .str
  | _, _ => false

/-- How an argument fits a parameter, where `item` is the element type of the receiver. -/
def Param.accepts (item : Option Ty) (arg : Ty) : Param → Assignability
  | .any =>
    match arg with
    | .primitive .void | .tuple _ | .null => .incompatible
    | _ => .exact
  | .int => if arg.isInteger then .exact else .incompatible
  | .num => if arg.isNumeric then .exact else .incompatible
  | .element =>
    match item with
    | none => .incompatible
    | some type => type.assign arg

/-- The type that a builtin returns, where `item` is the element type of the receiver. -/
def Returns.type (item : Option Ty) : Returns → Ty
  | .void => .void
  | .str => .str
  | .i64 => .i64
  | .u64 => .u64
  | .f64 => .f64
  | .element => item.getD .void
  | .pair => .tuple [.i64, .i64]

/-- Adds the argument at `index`, which fits its parameter as `fit` says, to the narrowed ones among
the arguments behind it. -/
def note (index : Nat) (fit : Assignability) (others : Option (List Nat)) : Option (List Nat) :=
  match fit with
  | .incompatible => none
  | .narrowing => others.map (index :: ·)
  | _ => others

/-- The positions, counted from `index`, of the arguments that fit their parameters only by
narrowing; nothing if the arguments do not fit. -/
def bind (item : Option Ty) (variadic : Option Param) (index : Nat) :
    List Param → List Ty → Option (List Nat)
  | [], [] => some []
  | [], arg :: args =>
    match variadic with
    | none => none
    | some param => note index (param.accepts item arg) (bind item variadic (index + 1) [] args)
  | _ :: _, [] => none
  | param :: params, arg :: args =>
    note index (param.accepts item arg) (bind item variadic (index + 1) params args)

end Builtin

/-- A call bound to a builtin or a conversion. -/
structure Resolved where
  /-- The type of the result. -/
  result : Ty
  /-- What is called in the generated text; for a method, the name of the member. -/
  target : String
  isConversion : Bool := false
  isVariadic : Bool := false
  /-- Whether the call changes its receiver. -/
  mutates : Bool := false
  /-- The positions of arguments that fit only by narrowing. -/
  narrowed : List Nat := []
deriving DecidableEq, Repr

namespace Signature

/-- The first builtin among `candidates` that accepts the call. -/
def resolveAmong (call : Signature) (candidates : List Builtin) : Option Resolved :=
  let item := call.receiver.bind Ty.element?
  candidates.findSome? fun builtin =>
    (Builtin.bind item builtin.variadic 0 builtin.params call.args).map fun narrowed =>
      { result := builtin.returns.type item
        target := builtin.target
        isVariadic := builtin.variadic.isSome
        mutates := builtin.receiver = .vector
        narrowed }

/-- Binds a call to the first builtin that accepts it. -/
def resolve (call : Signature) : Except Violation Resolved :=
  let candidates := (Builtin.named call.name).filter (·.receiver.accepts call.receiver)
  match call.resolveAmong candidates with
  | some resolved => .ok resolved
  | none =>
    .error (.unplaced
      (if !candidates.isEmpty then .noOverload call
        else if call.receiver.isSome then .unknownMethod call
        else .unknownFunction call))

end Signature

/-- Binds the conversion of one argument to a primitive type. -/
def Primitive.resolveConversion (target : Primitive) (args : List Ty) :
    Except Violation Resolved :=
  let call : Signature := ⟨none, target.name, args⟩
  let accept (callee : String) : Except Violation Resolved :=
    .ok { result := .primitive target, target := callee, isConversion := true }
  match args with
  | [.primitive .void] => .error (.unplaced (.unconvertible call))
  | [.primitive source] =>
    if target = .void then .error (.unplaced .conversionToVoid)
    else if target = .str then accept "rt::to_str"
    else if source = .str then .error (.unplaced (.unconvertibleString call))
    else accept ("static_cast<" ++ target.target ++ ">")
  | [_] => .error (.unplaced (.unconvertible call))
  | _ => .error (.unplaced (.conversionArity call))

end Sprout
