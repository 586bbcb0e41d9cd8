import Sprout.Emission.Program
import Sprout.Proofs.Outcome

namespace Sprout.Emission

variable {deny : Bool} {e e' : Emission} {s : Statement}

/-- Recording warnings changes nothing else. -/
theorem report_eq_ok {warnings : List Diagnostic} (h : e.report deny warnings = .ok e') :
    e' = { e with diagnostics := e.diagnostics ++ warnings } := by
  unfold report at h
  split at h
  · cases h
  · cases h
    rfl

/-- A reading that is settled was successful, and its warnings are recorded. -/
theorem eq_of_settle {α : Type} {checked : Emitting α} {value : α}
    (h : e.settle deny checked = .ok (value, e')) :
    checked.outcome = .ok value ∧
      e' = { e with diagnostics := e.diagnostics ++ checked.warnings } := by
  simp only [settle, bind_eq_ok_iff, liftM_violation_eq_ok_iff] at h
  obtain ⟨result, hresult, reported, hreported, heq⟩ := h
  cases heq
  exact ⟨hresult, report_eq_ok hreported⟩

/-- A name is declared in the innermost scope, with a warning if it hides another declaration. -/
theorem eq_of_declare {name : String} {symbol : Symbol} {position : Position}
    (h : e.declare deny name symbol position = .ok e') :
    ∃ declared scopes, e.scopes.declare name symbol = .ok (declared, scopes) ∧ e' =
      { e with
        scopes
        diagnostics := e.diagnostics ++
          if declared = .shadowing then [shadowWarning name position] else [] } := by
  simp only [declare, bind_eq_ok_iff] at h
  obtain ⟨⟨declared, scopes⟩, hdeclare, h⟩ := h
  refine ⟨declared, scopes, hdeclare, ?_⟩
  cases declared with
  | fresh =>
    cases h
    simp
  | shadowing => exact report_eq_ok h

/-- A declaration that is emitted was read, hides nothing it reads, binds all its names, and adds
its lines. -/
theorem eq_of_declaration (h : e.declaration deny s = .ok e') :
    ∃ d plan bound, Declaration.read s = .ok d ∧ d.checkShadowing e.scopes = .ok () ∧
      (d.plan e.scopes).outcome = .ok plan ∧
      bind deny (!d.isConstant)
        { e with diagnostics := e.diagnostics ++ (d.plan e.scopes).warnings } plan.bindings =
          .ok bound ∧
      e' = bound.emit plan.lines := by
  simp only [declaration, bind_eq_ok_iff, liftM_violation_eq_ok_iff] at h
  obtain ⟨d, hread, _, hcheck, ⟨plan, settled⟩, hsettle, bound, hbind, heq⟩ := h
  obtain ⟨hplan, rfl⟩ := eq_of_settle hsettle
  cases heq
  exact ⟨d, plan, bound, hread, hcheck, outcome_monadLift_check.1 hplan, hbind, rfl⟩

/-- An assignment that is emitted adds its lines. -/
theorem eq_of_assignment (h : e.assignment deny s = .ok e') :
    ∃ a lines, Assignment.read s = .ok a ∧ (a.lines e.scopes).outcome = .ok lines ∧
      e' = emit { e with diagnostics := e.diagnostics ++ (a.lines e.scopes).warnings } lines := by
  simp only [assignment, bind_eq_ok_iff] at h
  obtain ⟨a, hread, ⟨lines, settled⟩, hsettle, heq⟩ := h
  obtain ⟨hlines, rfl⟩ := eq_of_settle hsettle
  cases heq
  exact ⟨a, lines, hread, outcome_monadLift_check.1 hlines, rfl⟩

/-- Expressions that are emitted for their effect add their lines. -/
theorem eq_of_operation (h : e.operation deny s = .ok e') :
    ∃ es lines, Expr.parseList s.tokens = .ok es ∧
      (operationLines e.scopes es).outcome = .ok lines ∧
      e' = emit
        { e with diagnostics := e.diagnostics ++ (operationLines e.scopes es).warnings } lines := by
  simp only [operation, bind_eq_ok_iff, liftM_malformed_eq_ok_iff] at h
  obtain ⟨es, hparse, ⟨lines, settled⟩, hsettle, heq⟩ := h
  obtain ⟨hlines, rfl⟩ := eq_of_settle hsettle
  cases heq
  exact ⟨es, lines, hparse, outcome_monadLift_check.1 hlines, rfl⟩

/-- A `break` or a `continue` stands alone, inside a loop. -/
theorem eq_of_jump (h : e.jump s = .ok e') :
    s.rest = [] ∧ e.scopes.inLoop = true ∧ e' = e.line (s.lead.lexeme ++ ";") := by
  unfold jump at h
  split at h
  · cases h
  · rename_i hrest
    split at h
    · rename_i hloop
      cases h
      exact ⟨hrest, hloop, rfl⟩
    · cases h

/-- A `return` stands inside the main block. The warnings about its value are not recorded. -/
theorem eq_of_result (h : e.result s = .ok e') :
    e.scopes.inMain = true ∧ ∃ text, resultText e.scopes s.rest = .ok text ∧
      e' = e.line ("return " ++ text ++ ";") := by
  unfold result at h
  split at h
  · rename_i hmain
    obtain ⟨text, htext, heq⟩ := bind_eq_ok_iff.1 h
    cases heq
    exact ⟨hmain, text, htext, rfl⟩
  · cases h

/-- What is returned is a whole number, by default zero. -/
theorem resultText_eq_ok {scopes : Scopes} {run : List Token} {text : String}
    (h : resultText scopes run = .ok text) :
    run = [] ∧ text = "0" ∨ run ≠ [] ∧ ∃ expr typed, Expr.parse run = .ok expr ∧
      (expr.value scopes).outcome = .ok typed ∧ typed.type.isInteger = true ∧
      text = typed.text := by
  unfold resultText at h
  split at h
  · cases h
    exact .inl ⟨rfl, rfl⟩
  · rename_i hrest
    simp only [bind_eq_ok_iff, liftM_malformed_eq_ok_iff, liftM_violation_eq_ok_iff] at h
    obtain ⟨expr, hparse, typed, htyped, h⟩ := h
    split at h
    · rename_i hinteger
      cases h
      exact .inr ⟨hrest, expr, typed, hparse, htyped, hinteger, rfl⟩
    · cases h

variable {scopes : Scopes} {waiting : Header}

/-- The word that opens the program stands alone and once, outside all blocks. -/
theorem eq_of_start (h : e.start s = .ok e') :
    s.rest = [] ∧ e.scopes.depth = 0 ∧ e.seenMain = false ∧
      e' = { e with seenMain := true, pending := some .main } := by
  unfold start at h
  split at h
  · cases h
  · rename_i hrest
    split at h
    · cases h
    · rename_i hdepth
      split at h
      · cases h
      · rename_i hseen
        cases h
        exact ⟨hrest, by simpa using hdepth, by simpa using hseen, rfl⟩

/-- A header that is emitted waits for its brace. -/
theorem eq_of_header (h : e.header deny s = .ok e') :
    ∃ waiting, (headerOf e.scopes s).outcome = .ok waiting ∧ e' =
      { e with
        pending := some waiting
        diagnostics := e.diagnostics ++ (headerOf e.scopes s).warnings } := by
  simp only [header, bind_eq_ok_iff] at h
  obtain ⟨⟨waiting, settled⟩, hsettle, heq⟩ := h
  obtain ⟨hwaiting, rfl⟩ := eq_of_settle hsettle
  cases heq
  exact ⟨waiting, hwaiting, rfl⟩

/-- A header is that of an `if`, of a `while`, or else of a `for`. -/
theorem headerOf_cases (h : (headerOf scopes s).outcome = .ok waiting) :
    (s.lead.kind = .keyword .ifWord ∧ ∃ text,
      (condition scopes s.lead s.rest).outcome = .ok text ∧
      waiting = .block .branch ("if (" ++ text ++ ") ") false) ∨
    (s.lead.kind = .keyword .whileWord ∧ ∃ text,
      (condition scopes s.lead s.rest).outcome = .ok text ∧
      waiting = .block .loop ("while (" ++ text ++ ") ") false) ∨
    (s.lead.kind ≠ .keyword .ifWord ∧ s.lead.kind ≠ .keyword .whileWord ∧ ∃ header,
      (loopHeader scopes s.lead s.rest).outcome = .ok header ∧ waiting = .loop header) := by
  unfold headerOf at h
  split at h <;> simp only [Checked.outcome_bind_eq_ok_iff] at h <;>
    obtain ⟨read, hread, heq⟩ := h <;> cases heq
  · exact .inl ⟨‹_›, read, hread, rfl⟩
  · exact .inr (.inl ⟨‹_›, read, hread, rfl⟩)
  · rename_i hif hwhile
    exact .inr (.inr ⟨hif, hwhile, read, hread, rfl⟩)

/-- An `else` stands behind the block of an `if`, and waits for its brace. -/
theorem eq_of_alternative {closed : Option Scope.Kind} (h : e.alternative deny closed s = .ok e') :
    closed = some .branch ∧ ∃ waiting, (alternativeOf e.scopes s).outcome = .ok waiting ∧ e' =
      { e with
        pending := some waiting
        diagnostics := e.diagnostics ++ (alternativeOf e.scopes s).warnings } := by
  unfold alternative at h
  split at h
  · rename_i hclosed
    obtain ⟨⟨waiting, settled⟩, hsettle, heq⟩ := bind_eq_ok_iff.1 h
    obtain ⟨hwaiting, rfl⟩ := eq_of_settle hsettle
    cases heq
    exact ⟨hclosed, waiting, hwaiting, rfl⟩
  · cases h

/-- An `else` has a condition or nothing behind it. -/
theorem alternativeOf_cases (h : (alternativeOf scopes s).outcome = .ok waiting) :
    (s.rest = [] ∧ waiting = .block .alternative "else " true) ∨
    ∃ next run text, s.rest = next :: run ∧ next.kind = .keyword .ifWord ∧
      (condition scopes next run).outcome = .ok text ∧
      waiting = .block .branch ("else if (" ++ text ++ ") ") true := by
  unfold alternativeOf at h
  split at h
  · rename_i hrest
    cases h
    exact .inl ⟨hrest, rfl⟩
  · rename_i next run hrest
    split at h
    · rename_i hif
      simp only [Checked.outcome_bind_eq_ok_iff] at h
      obtain ⟨text, htext, heq⟩ := h
      cases heq
      exact .inr ⟨next, run, text, hrest, hif, htext, rfl⟩
    · simp at h

/-- The clauses of a loop are values. -/
theorem value_of_clauseValue {part : Clause} {expr : Expr} {typed : Typed}
    (h : (clauseValue scopes part expr).outcome = .ok typed) :
    (expr.value scopes).outcome = .ok typed ∧ typed.type.isNumeric = true := by
  simp only [clauseValue, Checked.outcome_bind_eq_ok_iff] at h
  obtain ⟨value, hvalue, h⟩ := h
  split at h
  · simp at h
  · rename_i hnumeric
    split at h
    · simp at h
    · cases h
      exact ⟨hvalue, by simpa using hnumeric⟩

/-- A clause that is emitted belongs to a waiting loop header and reads no name that the header
hides. -/
theorem eq_of_clause {part : Clause} (h : e.clause deny part s = .ok e') :
    ∃ expr typed header, Expr.parse s.tokens = .ok expr ∧
      (clauseValue e.scopes part expr).outcome = .ok typed ∧ e.pending = some (.loop header) ∧
      (∀ name, header.shadowed = some name → expr.mentions name = false) ∧ e' =
        { e with
          pending := some (.loop (withClause header part typed.text))
          diagnostics := e.diagnostics ++ (clauseValue e.scopes part expr).warnings } := by
  simp only [clause, bind_eq_ok_iff, liftM_malformed_eq_ok_iff] at h
  obtain ⟨expr, hparse, ⟨typed, settled⟩, hsettle, h⟩ := h
  obtain ⟨hvalue, rfl⟩ := eq_of_settle hsettle
  split at h
  · rename_i header hheader
    split at h
    · cases h
    · rename_i hfilter
      cases h
      refine ⟨expr, typed, header, hparse, outcome_monadLift_check.1 hvalue, hheader,
        fun name hname => ?_, rfl⟩
      simpa [hname] using hfilter
  · cases h

@[simp] theorem shadowed_withClause (header : LoopHeader) (part : Clause) (text : String) :
    (withClause header part text).shadowed = header.shadowed := by
  cases part <;> rfl

@[simp] theorem declares_withClause (header : LoopHeader) (part : Clause) (text : String) :
    (withClause header part text).declares = header.declares := by
  cases part <;> rfl

/-- The brace of the main block declares the arguments of the program. -/
theorem eq_of_openMain (h : e.openMain = .ok e') :
    ∃ declared scopes,
      (e.scopes.enter .main).declareVariable "args" (.array .str none) false =
        .ok (declared, scopes) ∧
      e' = line { e.enter .main "int main(int argc, char** argv) \x7b" with scopes }
        "const rt::vector<std::string> args = rt::make_args(argc, argv);" := by
  simp only [openMain, bind_eq_ok_iff, liftM_violation_eq_ok_iff] at h
  obtain ⟨⟨declared, scopes⟩, hdeclare, heq⟩ := h
  cases heq
  exact ⟨declared, scopes, hdeclare, rfl⟩

/-- The brace of a loop, whose bound has been read, declares the variable of the loop if that is the
loop's own. -/
theorem eq_of_openLoop {header : LoopHeader} (h : e.openLoop deny header = .ok e') :
    ∃ bound args, header.bound = some bound ∧
      args = ", ".intercalate
        [header.type, header.name, header.start, bound, header.step.getD "1"] ∧
      ((header.declares = none ∧ e' = e.enter .loop ("RT_FOR(" ++ args ++ ") \x7b")) ∨
        ∃ own, header.declares = some own ∧
          (e.enter .loop ("RT_FOR(" ++ args ++ ") \x7b")).declare deny own.name
            ⟨own.type, none, true⟩ own.position = .ok e') := by
  unfold openLoop at h
  split at h
  · cases h
  · rename_i bound hbound
    refine ⟨bound, _, hbound, rfl, ?_⟩
    dsimp only at h
    split at h
    · rename_i hnone
      cases h
      exact .inl ⟨hnone, rfl⟩
    · rename_i own hown
      exact .inr ⟨own, hown, liftM_violation_eq_ok_iff.1 h⟩

/-- `Opens deny e e'`: an opening brace, which opens the block that waits for it, or else a plain
one. -/
inductive Opens (deny : Bool) (e : Emission) : Emission → Prop
  | plain (hpending : e.pending = none) :
      Opens deny e (enter { e with pending := none } .plain "\x7b")
  | main {opened} (hpending : e.pending = some .main)
      (hmain : openMain { e with pending := none } = .ok opened) : Opens deny e opened
  | goesOn {kind text} (hpending : e.pending = some (.block kind text true)) :
      Opens deny e
        { e with
          lines := (e.extend (" " ++ text ++ "\x7b")).lines
          scopes := e.scopes.enter kind
          pending := none }
  | block {kind text} (hpending : e.pending = some (.block kind text false)) :
      Opens deny e (enter { e with pending := none } kind (text ++ "\x7b"))
  | loop {header opened} (hpending : e.pending = some (.loop header))
      (hloop : openLoop deny { e with pending := none } header = .ok opened) : Opens deny e opened

/-- Continuing the latest line changes nothing but the lines, and needs nothing else. -/
theorem extend_eq (text : String) (pending : Option Header) :
    extend { e with pending } text = { e with pending, lines := (e.extend text).lines } := by
  cases hlines : e.lines <;> simp [extend, hlines]

/-- An opening brace does one of four things, depending on the header that waits for it. -/
theorem Opens.of_openBlock (h : e.openBlock deny = .ok e') : Opens deny e e' := by
  unfold openBlock at h
  dsimp only at h
  split at h
  · cases h
    exact .plain ‹_›
  · exact .main ‹_› h
  · rename_i kind text hpending
    rw [extend_eq] at h
    cases h
    exact .goesOn hpending
  · cases h
    exact .block ‹_›
  · exact .loop ‹_› h

/-- A closing brace closes the innermost block. The main block returns zero before that. -/
theorem eq_of_closeBlock {position : Position} (h : e.closeBlock position = .ok e') :
    ∃ scope scopes inner, e.scopes.leave = .ok (scope, scopes) ∧
      (e.scopes.current.kind = .main ∧ inner = e.line "return 0;" ∨
        e.scopes.current.kind ≠ .main ∧ inner = e) ∧
      e' = { line { inner with scopes } "\x7d" with closed := some scope.kind } := by
  simp only [closeBlock, bind_eq_ok_iff, liftM_violation_eq_ok_iff, mapError_eq_ok_iff] at h
  obtain ⟨⟨scope, scopes⟩, hleave, heq⟩ := h
  cases heq
  split at hleave
  · rename_i hmain
    exact ⟨scope, scopes, _, hleave, .inl ⟨hmain, rfl⟩, by rw [if_pos hmain]⟩
  · rename_i hmain
    exact ⟨scope, scopes, _, hleave, .inr ⟨hmain, rfl⟩, by rw [if_neg hmain]⟩

/-- What a statement is allowed to do, and does, by its kind, with all that has been checked and all
that the emission has become. These acts are all that a step can be. -/
inductive Act (deny : Bool) (closed : Option Scope.Kind) (e e' : Emission) (s : Statement) : Prop
  | start (hkind : s.kind = .main) (hpending : e.pending = none) (hstart : e.start s = .ok e')
  | declaration (hkind : s.kind = .declaration ∨ s.kind = .initialization)
      (hpending : e.pending = none) (hdeclaration : e.declaration deny s = .ok e')
  | operation (hkind : s.kind = .operation) (hpending : e.pending = none)
      (hdepth : 0 < e.scopes.depth) (hoperation : e.operation deny s = .ok e')
  | assignment (hkind : s.kind = .assignment) (hpending : e.pending = none)
      (hdepth : 0 < e.scopes.depth) (hassignment : e.assignment deny s = .ok e')
  | header (hkind : s.kind = .header) (hpending : e.pending = none)
      (hdepth : 0 < e.scopes.depth) (hheader : e.header deny s = .ok e')
  | alternative (hkind : s.kind = .alternative) (hpending : e.pending = none)
      (hdepth : 0 < e.scopes.depth) (halternative : e.alternative deny closed s = .ok e')
  | bound (hkind : s.kind = .bound) (hclause : e.clause deny .bound s = .ok e')
  | step (hkind : s.kind = .step) (hclause : e.clause deny .step s = .ok e')
  | jump (hkind : s.kind = .jump) (hpending : e.pending = none)
      (hdepth : 0 < e.scopes.depth) (hjump : e.jump s = .ok e')
  | result (hkind : s.kind = .result) (hpending : e.pending = none)
      (hdepth : 0 < e.scopes.depth) (hresult : e.result s = .ok e')
  | opening (hkind : s.kind = .opening) (hdepth : e.pending = none → 0 < e.scopes.depth)
      (hopens : Opens deny e e')
  | closing (hkind : s.kind = .closing) (hpending : e.pending = none)
      (hcloses : e.closeBlock s.position = .ok e')

/-- A statement that is emitted is allowed where it stands. -/
theorem dispatch_of_step (h : e.step deny s = .ok e') :
    dispatch deny e.closed { e with closed := none } s = .ok e' := by
  unfold step at h
  split at h
  · cases h
  · split at h
    · cases h
    · exact h

/-- While a header waits for its brace, only what continues it goes on. -/
theorem step_pending (h : e.step deny s = .ok e') :
    s.kind.continuesHeader = true ∨ e.pending = none := by
  unfold step at h
  split at h
  · cases h
  · rename_i hguard
    cases hpending : e.pending with
    | none => exact .inr rfl
    | some header => exact .inl (by simpa [hpending] using hguard)

/-- Where no header waits, only statements that may stand outside the main block do. -/
theorem step_global (h : e.step deny s = .ok e') (hpending : e.pending = none)
    (hkind : s.kind.isGlobal = false) : 0 < e.scopes.depth := by
  unfold step at h
  split at h
  · cases h
  · split at h
    · cases h
    · rename_i hguard
      rw [hpending, hkind] at hguard
      apply Nat.pos_of_ne_zero
      simpa using hguard

/-- A step is one of the acts, on what the statement before it has left. -/
theorem Act.of_step (h : e.step deny s = .ok e') :
    Act deny e.closed { e with closed := none } e' s := by
  have hdispatch := dispatch_of_step h
  have hpending := step_pending h
  have hglobal := step_global h
  unfold dispatch at hdispatch
  split at hdispatch <;> rename_i hkind <;> rw [hkind] at hpending hglobal <;>
    simp only [Statement.Kind.continuesHeader, Statement.Kind.isGlobal, Bool.false_eq_true, false_or,
      true_or, reduceCtorEq, forall_const] at hpending hglobal
  · exact .start hkind hpending hdispatch
  · exact .declaration (.inl hkind) hpending hdispatch
  · exact .declaration (.inr hkind) hpending hdispatch
  · exact .operation hkind hpending (hglobal hpending) hdispatch
  · exact .assignment hkind hpending (hglobal hpending) hdispatch
  · exact .header hkind hpending (hglobal hpending) hdispatch
  · exact .alternative hkind hpending (hglobal hpending) hdispatch
  · exact .bound hkind hdispatch
  · exact .step hkind hdispatch
  · exact .jump hkind hpending (hglobal hpending) hdispatch
  · exact .result hkind hpending (hglobal hpending) hdispatch
  · exact .opening hkind hglobal (.of_openBlock hdispatch)
  · exact .closing hkind hpending hdispatch

/-- A step at a declaration is that of the declaration. -/
theorem declaration_of_step (h : e.step deny s = .ok e')
    (hkind : s.kind = .declaration ∨ s.kind = .initialization) :
    declaration deny { e with closed := none } s = .ok e' := by
  have hdispatch := dispatch_of_step h
  rcases hkind with hkind | hkind <;> simpa only [dispatch, hkind] using hdispatch

/-- A step at a clause is that of the bound or of the step of a loop. -/
theorem clause_of_step (h : e.step deny s = .ok e') (hkind : s.kind = .bound ∨ s.kind = .step) :
    ∃ part, clause deny part { e with closed := none } s = .ok e' := by
  have hdispatch := dispatch_of_step h
  rcases hkind with hkind | hkind <;> simp only [dispatch, hkind] at hdispatch
  · exact ⟨.bound, hdispatch⟩
  · exact ⟨.step, hdispatch⟩

/-- A run takes one step and goes on from where it led. -/
theorem run_cons {after : List Statement} (h : run deny e (s :: after) = .ok e') :
    ∃ e₁, e.step deny s = .ok e₁ ∧ run deny e₁ after = .ok e' := by
  rw [run] at h
  split at h
  · cases h
  · rename_i e₁ hstep
    exact ⟨e₁, hstep, h⟩

/-- What holds at the start of a run, and is kept by every one of its statements, holds at the end.
With the acts of a statement, a property of runs comes down to one case for each of them. -/
theorem run_induction {P : Emission → Prop} {statements : List Statement}
    (h : run deny e statements = .ok e') (hstart : P e)
    (hkeeps : ∀ s ∈ statements, ∀ e₁ e₂, P e₁ → e₁.step deny s = .ok e₂ → P e₂) : P e' := by
  induction statements generalizing e with
  | nil =>
    cases h
    exact hstart
  | cons s statements ih =>
    rw [List.forall_mem_cons] at hkeeps
    obtain ⟨e₁, hstep, hrun⟩ := run_cons h
    exact ih hrun (hkeeps.1 e e₁ hstart hstep) hkeeps.2

/-- A run that gets through gets to every one of its statements and through it. -/
theorem run_append {before after : List Statement}
    (h : run deny e (before ++ s :: after) = .ok e') :
    ∃ e₁ e₂, run deny e before = .ok e₁ ∧ e₁.step deny s = .ok e₂ ∧ run deny e₂ after = .ok e' := by
  induction before generalizing e with
  | nil =>
    obtain ⟨e₂, hstep, hafter⟩ := run_cons h
    exact ⟨e, e₂, rfl, hstep, hafter⟩
  | cons first before ih =>
    obtain ⟨e₀, hfirst, hrun⟩ := run_cons h
    obtain ⟨e₁, e₂, hbefore, hstep, hafter⟩ := ih hrun
    exact ⟨e₁, e₂, by simp only [run, hfirst, hbefore], hstep, hafter⟩

end Sprout.Emission
