import Mathlib
import Sprout.Proofs.Emission.Acceptance
import Sprout.Proofs.Stages
import Sprout.Proofs.Typing.Steps

namespace Sprout

namespace Expr

/-- The variable that an expression is, or is an element of. -/
def root? : Expr → Option String
  | ident name _ => some name
  | index receiver _ => root? receiver
  | method receiver name _ _ => if name = "at" then root? receiver else none
  | _ => none

end Expr

/-- `Writes s e`: the statement `s` writes to the expression `e`. -/
inductive Statement.Writes : Statement → Expr → Prop
  | target {s a e} (hkind : s.kind = .assignment) (hread : Assignment.read s = .ok a)
      (he : e ∈ a.targets) : Writes s e
  | loopVariable {s target equal initial e} (hkind : s.kind = .header)
      (hlead : s.lead.kind = .keyword .forWord)
      (hsplit : Token.splitTop (· = .equal) 0 s.rest = some (target, equal, initial))
      (hvar : ∀ t ∈ target.head?, t.kind ≠ .keyword .var) (hparse : Expr.parse target = .ok e) :
      Writes s e
  | stepBefore {s whole op e position} (hholds : s.Holds whole)
      (hwithin : Expr.Within (.stepBefore op e position) whole) : Writes s e
  | stepAfter {s whole op e position} (hholds : s.Holds whole)
      (hwithin : Expr.Within (.stepAfter op e position) whole) : Writes s e
  | receiver {s whole name args e position} (hholds : s.Holds whole)
      (hname : name ∈ ["push", "pop", "clear"])
      (hwithin : Expr.Within (.method e name args position) whole) : Writes s e

section Places

variable {scopes : Scopes} {e : Expr} {typed : Typed} {position : Position}

/-- The place that an expression stands for is that of the variable at its root. -/
theorem Expr.place_of_value {name : String} (h : (e.value scopes).outcome = .ok typed)
    (hroot : e.root? = some name) :
    ∃ symbol, scopes.lookup name = some symbol ∧
      typed.place = some ⟨name, symbol.mutable, symbol.constant.isSome⟩ := by
  fun_induction root? e generalizing typed with
  | case1 own position =>
    cases hroot
    obtain ⟨symbol, hsymbol, rfl⟩ := Typed.eq_of_ofName h
    exact ⟨symbol, hsymbol, rfl⟩
  | case2 receiver offset ih =>
    cases ValueStep.of_value h with
    | index hwhole _ hselect =>
      rw [(Typed.elementAt_eq_ok hselect).2.2]
      exact ih hwhole hroot
  | case3 receiver args position ih =>
    cases ValueStep.of_value h with
    | method hwhole _ hcall =>
      rcases Typed.eq_of_callMethod hcall with ⟨offset, -, -, hselect⟩ | ⟨hat, -⟩
      · rw [(Typed.elementAt_eq_ok hselect).2.2]
        exact ih hwhole hroot
      · exact absurd rfl hat
  | case4 => cases hroot
  | case5 => cases hroot

/-- What may be written is rooted at a mutable variable that is no constant, if it is rooted at a
variable at all. -/
theorem Expr.Writable.lookup {name : String} (h : e.Writable scopes) (hroot : e.root? = some name) :
    ∃ symbol, scopes.lookup name = some symbol ∧ symbol.mutable = true ∧
      symbol.constant = none := by
  obtain ⟨typed, position, htyped, hmodifiable⟩ := h
  obtain ⟨symbol, hsymbol, hplace⟩ := place_of_value htyped hroot
  refine ⟨symbol, hsymbol, ?_⟩
  simp only [Typed.checkModifiable, hplace] at hmodifiable
  split at hmodifiable
  · cases hmodifiable
  · rename_i hconstant
    split at hmodifiable
    · cases hmodifiable
    · rename_i hmutable
      exact ⟨by simpa using hmutable, by simpa using hconstant⟩

end Places

section Operations

variable {scopes : Scopes} {e : Expr}

/-- Whatever an accepted expression steps or changes by a method may be written. -/
theorem Expr.Accepted.writable_of_step {op : StepOp} {position : Position}
    (h : Accepted scopes (.stepBefore op e position) ∨ Accepted scopes (.stepAfter op e position)) :
    e.Writable scopes := by
  rcases h with hbefore | hafter
  · obtain ⟨typed, htyped⟩ := hbefore.value (by simp) (by simp)
    cases ValueStep.of_value htyped with
    | stepBefore hinner hstep =>
      exact ⟨_, position, hinner, (Typed.applyStep_eq_ok hstep).2.1⟩
  · obtain ⟨typed, htyped⟩ := hafter.value (by simp) (by simp)
    cases ValueStep.of_value htyped with
    | stepAfter hinner hstep =>
      exact ⟨_, position, hinner, (Typed.applyStep_eq_ok hstep).2.1⟩

/-- The receiver of a method that changes it may be written, if the call is accepted: binding such a
method asks for that. -/
theorem Expr.Accepted.writable_of_method {name : String} {args : List Expr} {position : Position}
    (hname : name ∈ ["push", "pop", "clear"]) (h : Accepted scopes (.method e name args position)) :
    e.Writable scopes := by
  obtain ⟨typed, htyped⟩ := h.value (by simp) (by simp)
  cases ValueStep.of_value htyped with
  | method hreceiver _ hcall =>
    refine ⟨_, position, hreceiver, ?_⟩
    rcases Typed.eq_of_callMethod hcall with ⟨_, rfl, -⟩ | ⟨-, resolved, hresolved, hmodifiable, -⟩
    · exact absurd hname (by decide)
    · exact hmodifiable (Signature.mutates_of_resolve hname hresolved)

end Operations

namespace Emission

variable {deny : Bool} {e e' : Emission} {s : Statement} {w : Expr}

/-- Everything that an emitted statement writes may be written in the scopes before it: the targets
of an assignment, the variable a loop reuses, and what is stepped or changed by a method inside any
expression. -/
theorem writable_of_step (h : e.step deny s = .ok e') (hwrites : s.Writes w) :
    w.Writable e.scopes := by
  cases hwrites with
  | target hkind hread he =>
    have hdispatch := dispatch_of_step h
    simp only [dispatch, hkind] at hdispatch
    obtain ⟨a, hread', htargets, -⟩ := assignment_eq_ok hdispatch
    rw [hread] at hread'
    cases hread'
    exact htargets w he
  | loopVariable hkind hlead hsplit hvar hparse =>
    obtain ⟨header, hheader, -⟩ := loop_of_step h hkind hlead
    obtain ⟨_, _, _, _, _, hsplit', -, -, hcases⟩ := loopHeader_cases hheader
    rw [hsplit] at hsplit'
    cases hsplit'
    rcases hcases with ⟨first, _, rfl, hfirst, -⟩ | ⟨-, hreusing⟩
    · exact absurd hfirst (hvar first rfl)
    · obtain ⟨named, typed, text, hparse', htyped, hmodifiable, -⟩ := eq_of_reusingHeader hreusing
      rw [hparse] at hparse'
      cases hparse'
      exact ⟨typed, w.position, htyped, hmodifiable⟩
  | stepBefore hholds hwithin =>
    exact Expr.Accepted.writable_of_step (.inl ((accepted_of_step h hholds).within hwithin))
  | stepAfter hholds hwithin =>
    exact Expr.Accepted.writable_of_step (.inr ((accepted_of_step h hholds).within hwithin))
  | receiver hholds hname hwithin =>
    exact ((accepted_of_step h hholds).within hwithin).writable_of_method hname

end Emission

/-- A program that compiles writes to mutable variables only. At each of its statements, in the
scopes that those before it leave open, whatever the statement writes to and is a variable or an
element of one belongs to a mutable variable that is no constant. -/
theorem Source.compile_writes_mutable {source : Source} {options : Options} {artifact : Artifact}
    (h : source.compile options = .ok artifact) :
    ∃ tokens statements, source.significant = .ok tokens ∧
      source.statements tokens = .ok statements ∧
      ∀ before s after, statements = before ++ s :: after →
        ∃ e, Emission.run options.denyWarnings {} before = .ok e ∧
          ∀ w name, s.Writes w → w.root? = some name →
            ∃ symbol, e.scopes.lookup name = some symbol ∧ symbol.mutable = true ∧
              symbol.constant = none := by
  obtain ⟨tokens, statements, last, htokens, hstatements, hemission, -⟩ := eq_of_compile h
  obtain ⟨hrun, -⟩ := eq_of_emission hemission
  refine ⟨tokens, statements, htokens, hstatements, ?_⟩
  rintro before s after rfl
  obtain ⟨e, e', hbefore, hstep, -⟩ := Emission.run_append hrun
  refine ⟨e, hbefore, fun w name hwrites hroot => ?_⟩
  exact (Emission.writable_of_step hstep hwrites).lookup hroot

/-- A program that steps a variable inside an argument. -/
private def stepInArgument : Source :=
  ⟨"step", "main\x7bvar a=1;print(a++);\x7d"⟩

/-- The statement writes to the variable although it is a call, for what is stepped may stand
anywhere inside. -/
theorem stepInArgument_writes_mutable :
    ∃ artifact, stepInArgument.compile {} = .ok artifact ∧
      ∃ tokens statements, stepInArgument.significant = .ok tokens ∧
        stepInArgument.statements tokens = .ok statements ∧
        ∀ before s after, statements = before ++ s :: after →
          ∃ e, Emission.run false {} before = .ok e ∧
            ∀ w name, s.Writes w → w.root? = some name →
              ∃ symbol, e.scopes.lookup name = some symbol ∧ symbol.mutable = true ∧
                symbol.constant = none := by
  have hisOk : (stepInArgument.compile {}).isOk = true := by decide +kernel
  obtain ⟨artifact, hcompile⟩ := exists_eq_ok_of_isOk hisOk
  exact ⟨artifact, hcompile, Source.compile_writes_mutable hcompile⟩

end Sprout
