import Sprout.Constant
import Sprout.Fault

namespace Sprout

/-- What a block was opened for. -/
inductive Scope.Kind
  | global
  | main
  | branch
  | alternative
  | loop
  | plain
deriving DecidableEq, Repr

/-- What a name stands for. Only constants carry a value, and they are never mutable. -/
structure Symbol where
  type : Ty
  constant : Option Constant
  mutable : Bool
deriving DecidableEq, Repr

/-- One scope: the names declared in it, the latest first. -/
structure Scope where
  kind : Scope.Kind
  symbols : List (String × Symbol) := []
deriving DecidableEq, Repr

namespace Scope

/-- What a name stands for in this scope alone. -/
def find? (s : Scope) (name : String) : Option Symbol :=
  s.symbols.lookup name

/-- Whether the scope itself declares a name. -/
def contains (s : Scope) (name : String) : Bool :=
  (s.find? name).isSome

end Scope

/-- Whether a new declaration hides one of an enclosing scope. -/
inductive Declared
  | fresh
  | shadowing
deriving DecidableEq, Repr

/-- Nested scopes, of which the global one is always there. Opening a block adds an innermost scope,
closing it removes that scope with all its names, and a name means its innermost declaration. -/
structure Scopes where
  current : Scope := { kind := .global }
  enclosing : List Scope := []
deriving DecidableEq, Repr

namespace Scopes

/-- All open scopes, from the inside out. -/
def all (s : Scopes) : List Scope :=
  s.current :: s.enclosing

/-- The kinds of the open scopes, from the inside out. -/
def kinds (s : Scopes) : List Scope.Kind :=
  s.all.map Scope.kind

/-- How many scopes are open inside the global one. -/
def depth (s : Scopes) : Nat :=
  s.enclosing.length

/-- Opens a block of a kind. -/
def enter (s : Scopes) (kind : Scope.Kind) : Scopes :=
  ⟨{ kind }, s.all⟩

/-- Closes the innermost block: the scope it had, and the scopes that stay open. -/
def leave (s : Scopes) : Except Violation (Scope × Scopes) :=
  match s.enclosing with
  | [] => .error (.unplaced .unmatchedBrace)
  | outer :: others => .ok (s.current, ⟨outer, others⟩)

/-- What a name means: its innermost declaration. -/
def lookup (s : Scopes) (name : String) : Option Symbol :=
  s.all.findSome? (·.find? name)

/-- Whether a name is declared in an enclosing scope and not in the innermost one. -/
def isShadowing (s : Scopes) (name : String) : Bool :=
  !s.current.contains name && s.enclosing.any (·.contains name)

/-- Declares a name in the innermost scope, where it must be new. -/
def declare (s : Scopes) (name : String) (symbol : Symbol) : Except Violation (Declared × Scopes) :=
  if s.current.contains name then .error (.unplaced (.alreadyDeclared name))
  else
    let current := { s.current with symbols := (name, symbol) :: s.current.symbols }
    .ok (if s.isShadowing name then .shadowing else .fresh, { s with current })

/-- Declares a variable. -/
def declareVariable (s : Scopes) (name : String) (type : Ty) (mutable : Bool) :
    Except Violation (Declared × Scopes) :=
  s.declare name ⟨type, none, mutable⟩

/-- Declares a constant with its value. -/
def declareConstant (s : Scopes) (name : String) (type : Ty) (value : Constant) :
    Except Violation (Declared × Scopes) :=
  s.declare name ⟨type, some value, false⟩

/-- Whether a loop is open inside the nearest global scope. -/
def inLoop (s : Scopes) : Bool :=
  (s.kinds.takeWhile (· ≠ .global)).contains .loop

/-- Whether the main block is open. -/
def inMain (s : Scopes) : Bool :=
  s.kinds.contains .main

end Scopes

end Sprout
