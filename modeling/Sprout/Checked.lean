import Sprout.Diagnostic

namespace Sprout

/-- The outcome of a check, a result or a refusal, and the warnings that came with it. They are
there in either case, in the order in which they arose. -/
structure Checked (ε α : Type) where
  outcome : Except ε α
  warnings : List Diagnostic := []

namespace Checked

variable {ε ε' α β : Type}

/-- Continues a check with its result; a refusal ends it. -/
def andThen (first : Checked ε α) (next : α → Checked ε β) : Checked ε β :=
  match first.outcome with
  | .error e => ⟨.error e, first.warnings⟩
  | .ok a =>
    let second := next a
    ⟨second.outcome, first.warnings ++ second.warnings⟩

instance : Monad (Checked ε) where
  pure a := ⟨.ok a, []⟩
  bind := andThen

/-- A refusal without warnings. -/
def fail (e : ε) : Checked ε α :=
  ⟨.error e, []⟩

/-- A warning. -/
def warn (d : Diagnostic) : Checked ε Unit :=
  ⟨.ok (), [d]⟩

/-- A check that never warns. -/
def lift (outcome : Except ε α) : Checked ε α :=
  ⟨outcome, []⟩

/-- The same check with its refusals seen differently. -/
def mapError (f : ε → ε') (check : Checked ε α) : Checked ε' α :=
  ⟨check.outcome.mapError f, check.warnings⟩

end Checked

end Sprout
