import Sprout.Emission

namespace Sprout

/-- The typed call and the types it returns, when a single expression is to be unpacked into `count`
targets. Nothing if there is nothing to unpack. -/
def unpackable? (scopes : Scopes) (count : Nat) : List Expr → Check (Option (Typed × List Ty))
  | [e] =>
    if count < 2 || !e.isCallChain then pure none
    else do
      let call ← e.value scopes
      match call.type with
      | .tuple members =>
        if members.length = count then pure (some (call, members))
        else (Fault.returnCount members.length count).raise e.position
      | _ => pure none
  | _ => pure none

/-- The lines that assign the members of the temporary, counted from `index`, to targets of the
given texts and types. The temporary stands in a block of its own with them. -/
def memberLines (position : Position) (index : Nat) :
    List (String × Ty) → List Ty → Check (List Line)
  | (target, type) :: targets, member :: members => do
    let part : Typed :=
      { text := "std::get<" ++ toString index ++ ">(" ++ Target.temporary ++ ")", type := member }
    let text ← part.converted type position
    let others ← memberLines position (index + 1) targets members
    pure (⟨1, target ++ " = " ++ text ++ ";"⟩ :: others)
  | _, _ => pure []

/-- The block that unpacks a call into targets. -/
def unpack (call : Typed) (members : List Ty) (targets : List (String × Ty))
    (position : Position) : Check (List Line) := do
  let inner ← memberLines position 0 targets members
  pure ([⟨0, "\x7b"⟩, ⟨1, "const auto " ++ Target.temporary ++ " = " ++ call.text ++ ";"⟩]
    ++ inner ++ [⟨0, "\x7d"⟩])

/-- A list as long as `count` asks for: a single member is shared by all. -/
def spread {α : Type} (count : Nat) : List α → List α
  | [a] => List.replicate count a
  | as => as

/-- A single member, or as many as are asked for, become as many as are asked for. So each target of
a declaration or an assignment has a value. -/
theorem length_spread {α : Type} {count : Nat} {as : List α}
    (h : as.length = 1 ∨ as.length = count) : (spread count as).length = count := by
  unfold spread
  split
  · simp
  · rename_i hsingle
    refine h.resolve_left fun hone => ?_
    obtain ⟨a, rfl⟩ := List.length_eq_one_iff.1 hone
    exact hsingle a rfl

end Sprout
