import Sprout.Proofs.Blocks.Structure

namespace Sprout

namespace Emission

variable {deny : Bool} {e e' : Emission} {s : Statement}

/-- The brace of the main block takes the emission one block deeper, and the declaration of its
argument does not. -/
theorem depth_of_openMain (h : e.openMain = .ok e') : e'.scopes.depth = e.scopes.depth + 1 := by
  obtain ⟨declared, scopes, hdeclare, rfl⟩ := eq_of_openMain h
  exact depth_eq_of_kinds (kinds_of_declare hdeclare)

/-- The brace of a loop takes the emission one block deeper, and the declaration of the loop
variable does not. -/
theorem depth_of_openLoop {header : LoopHeader} (h : e.openLoop deny header = .ok e') :
    e'.scopes.depth = e.scopes.depth + 1 := by
  obtain ⟨bound, args, -, -, ⟨-, rfl⟩ | ⟨own, -, hdeclare⟩⟩ := eq_of_openLoop h
  · rfl
  · obtain ⟨declared, scopes, hkinds, rfl⟩ := eq_of_declare hdeclare
    exact depth_eq_of_kinds (kinds_of_declare hkinds)

/-- An opening brace opens one block. -/
theorem depth_of_opens (h : Opens deny e e') : e'.scopes.depth = e.scopes.depth + 1 := by
  cases h with
  | plain | goesOn | block => rfl
  | main _ hmain => exact depth_of_openMain (e := { e with pending := none }) hmain
  | loop _ hloop => exact depth_of_openLoop (e := { e with pending := none }) hloop

/-- A closing brace closes one block. -/
theorem depth_of_closeBlock {position : Position} (h : e.closeBlock position = .ok e') :
    e'.scopes.depth + 1 = e.scopes.depth := by
  obtain ⟨scope, scopes, inner, hleave, -, rfl⟩ := eq_of_closeBlock h
  exact Scopes.depth_of_leave hleave

/-- A declaration stays in the block it stands in. The braces around unpacked values are lines and
open no scope. -/
theorem depth_of_declaration (h : e.declaration deny s = .ok e') :
    e'.scopes.depth = e.scopes.depth := by
  obtain ⟨d, plan, bound, -, -, -, hbind, rfl⟩ := eq_of_declaration h
  obtain ⟨scopes, diagnostics, hkinds, rfl⟩ := eq_of_bind hbind
  exact depth_eq_of_kinds hkinds

/-- A statement opens one block at most, so no place of a program is deeper than there are
statements in front of it. -/
theorem depth_of_step (h : e.step deny s = .ok e') : e'.scopes.depth ≤ e.scopes.depth + 1 := by
  have hsame : e'.scopes = e.scopes → e'.scopes.depth ≤ e.scopes.depth + 1 :=
    fun hscopes => by rw [hscopes]; omega
  cases Act.of_step h with
  | start _ _ hstart =>
    obtain ⟨-, -, -, rfl⟩ := eq_of_start hstart
    exact hsame rfl
  | declaration _ _ hdeclaration =>
    exact (depth_of_declaration hdeclaration).le.trans (Nat.le_succ _)
  | operation _ _ _ hoperation =>
    obtain ⟨es, lines, -, -, rfl⟩ := eq_of_operation hoperation
    exact hsame rfl
  | assignment _ _ _ hassignment =>
    obtain ⟨a, lines, -, -, rfl⟩ := eq_of_assignment hassignment
    exact hsame rfl
  | header _ _ _ hheader =>
    obtain ⟨waiting, -, rfl⟩ := eq_of_header hheader
    exact hsame rfl
  | alternative _ _ _ halternative =>
    obtain ⟨-, waiting, -, rfl⟩ := eq_of_alternative halternative
    exact hsame rfl
  | bound _ hclause | step _ hclause =>
    obtain ⟨expr, typed, header, -, -, -, -, rfl⟩ := eq_of_clause hclause
    exact hsame rfl
  | jump _ _ _ hjump =>
    obtain ⟨-, -, rfl⟩ := eq_of_jump hjump
    exact hsame rfl
  | result _ _ _ hresult =>
    obtain ⟨-, text, -, rfl⟩ := eq_of_result hresult
    exact hsame rfl
  | opening _ _ hopens => exact (depth_of_opens hopens).le
  | closing _ _ hcloses =>
    have hdepth := depth_of_closeBlock hcloses
    dsimp only at hdepth
    omega

end Emission

end Sprout
