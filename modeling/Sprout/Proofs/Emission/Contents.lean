import Sprout.Proofs.Emission.Acceptance

namespace Sprout

/-- What a statement says: its expressions as they are read. The one run that stays as it is written
is what stands before the equal sign of a `for` header, the name of the loop variable and maybe its
type. -/
inductive Statement.Content
  | main
  | declaration (d : Declaration)
  | operation (es : List Expr)
  | assignment (a : Assignment)
  | condition (e : Expr)
  | loop (target : List Token) (start : Expr)
  | alternative (condition : Option Expr)
  | clause (part : Clause) (e : Expr)
  | jump
  | result (value : Option Expr)
  | opening
  | closing

/-- The expressions that a statement was read for, in order. Neither a declared type nor the variable
of a loop is one. -/
def Statement.Content.trees : Statement.Content → List Expr
  | .declaration d => d.initializers
  | .operation es => es
  | .assignment a => a.targets ++ a.values
  | .condition e | .loop _ e | .clause _ e => [e]
  | .alternative e | .result e => e.toList
  | .main | .jump | .opening | .closing => []

/-- A statement that has been read. -/
structure Statement.Reading where
  kind : Statement.Kind
  lead : Token
  content : Statement.Content

namespace Statement

/-- A statement that consists of a single word. -/
def bare (word : String) (content : Content) : List Token → Except Failure Content
  | [] => .ok content
  | extra :: _ => (Fault.unexpectedAfter extra.lexeme word).refuse extra.position

/-- Reads a condition. -/
def readCondition (keyword : Token) (run : List Token) : Except Failure Expr := do
  let run ← require .condition keyword run
  Expr.parse run

/-- Reads the first clause of a `for` header. -/
def readLoop (keyword : Token) (run : List Token) : Except Failure Content := do
  let run ← require .loopVariable keyword run
  match Token.splitTop (· = .equal) 0 run with
  | none => Fault.loopWithoutStart.refuse keyword.position
  | some (target, equal, initial) =>
    let initial ← require .initialValue equal initial
    let start ← Expr.parse initial
    return .loop target start

/-- Reads the header of a block. -/
def readHeader (keyword : Token) (run : List Token) : Except Failure Content :=
  match keyword.kind with
  | .keyword .ifWord | .keyword .whileWord => do return .condition (← readCondition keyword run)
  | _ => readLoop keyword run

/-- Reads the header of an `else`. -/
def readAlternative : List Token → Except Failure Content
  | [] => .ok (.alternative none)
  | next :: run =>
    if next.kind = .keyword .ifWord then do
      let e ← readCondition next run
      return .alternative (some e)
    else (Fault.unexpectedAfter next.lexeme "else").refuse next.position

/-- What a statement says. -/
def content (s : Statement) : Except Failure Content :=
  match s.kind with
  | .main => bare "main" .main s.rest
  | .declaration | .initialization => do return .declaration (← Declaration.read s)
  | .operation => do return .operation (← Expr.parseList s.tokens)
  | .assignment => do return .assignment (← Assignment.read s)
  | .header => readHeader s.lead s.rest
  | .alternative => readAlternative s.rest
  | .bound => do return .clause .bound (← Expr.parse s.tokens)
  | .step => do return .clause .step (← Expr.parse s.tokens)
  | .jump => bare s.lead.lexeme .jump s.rest
  | .result =>
    match s.rest with
    | [] => .ok (.result none)
    | run => do return .result (some (← Expr.parse run))
  | .opening => .ok .opening
  | .closing => .ok .closing

/-- Reads a statement. -/
def read (s : Statement) : Except Failure Reading := do
  let content ← s.content
  return ⟨s.kind, s.lead, content⟩

end Statement

namespace Emission

/-- The text of a condition that has been read. -/
def conditionText (scopes : Scopes) (e : Expr) : Emitting String := do
  let typed ← e.value scopes
  if typed.type = .bool then pure typed.text
  else (Fault.condition typed.type).raise e.position

/-- The header of a block with a condition, by its keyword. -/
def conditionHeader (scopes : Scopes) (keyword : Token) (e : Expr) : Emitting Header := do
  let text ← conditionText scopes e
  if keyword.kind = .keyword .whileWord then
    pure (.block .loop ("while (" ++ text ++ ") ") false)
  else pure (.block .branch ("if (" ++ text ++ ") ") false)

/-- The header of a loop whose first value has been read. -/
def startedLoop (scopes : Scopes) (target : List Token) (e : Expr) : Emitting LoopHeader :=
  match target with
  | first :: declaration =>
    if first.kind = .keyword .var then do
      checkStart scopes declaration e
      let start ← e.value scopes
      declaringHeader scopes first declaration e start
    else do
      let start ← e.value scopes
      reusingHeader scopes target e start
  | [] => do
    let start ← e.value scopes
    reusingHeader scopes target e start

/-- The header of an `else` whose condition has been read. -/
def alternativeHeader (scopes : Scopes) : Option Expr → Emitting Header
  | none => pure (.block .alternative "else " true)
  | some e => do
    let text ← conditionText scopes e
    pure (.block .branch ("else if (" ++ text ++ ") ") true)

/-- Lets a header wait for its brace. -/
def await (deny : Bool) (e : Emission) (header : Emitting Header) : Except Failure Emission := do
  let (header, e) ← e.settle deny header
  return { e with pending := some header }

/-- Adds a clause that has been read to the header that waits. -/
def addClause (deny : Bool) (part : Clause) (e : Emission) (expr : Expr) :
    Except Failure Emission := do
  let (typed, e) ← e.settle deny (clauseValue e.scopes part expr)
  match e.pending with
  | some (.loop header) =>
    match header.shadowed.filter (expr.mentions ·) with
    | some name => (Fault.clauseShadowed part name).refuse expr.position
    | none => return { e with pending := some (.loop (withClause header part typed.text)) }
  | _ => (Fault.unexpectedClause part).refuse expr.position

/-- The text of a value that is returned. -/
def returnedText (scopes : Scopes) : Option Expr → Except Failure String
  | none => .ok "0"
  | some e => do
    let typed ← (e.value scopes).outcome
    if typed.type.isInteger then return typed.text
    else (Fault.returnType typed.type).refuse e.position

/-- Emits what a statement says, when it is allowed where it stands. -/
def perform (deny : Bool) (closed : Option Scope.Kind) (e : Emission) (lead : Token) :
    Statement.Content → Except Failure Emission
  | .main => e.start ⟨.main, lead, []⟩
  | .declaration d => do
    d.checkShadowing e.scopes
    let (plan, e) ← e.settle deny (d.plan e.scopes)
    let e ← e.bind deny (!d.isConstant) plan.bindings
    return e.emit plan.lines
  | .operation es => do
    let (lines, e) ← e.settle deny (operationLines e.scopes es)
    return e.emit lines
  | .assignment a => do
    let (lines, e) ← e.settle deny (a.lines e.scopes)
    return e.emit lines
  | .condition c => e.await deny (conditionHeader e.scopes lead c)
  | .loop target start => e.await deny do return .loop (← startedLoop e.scopes target start)
  | .alternative c =>
    if closed = some .branch then e.await deny (alternativeHeader e.scopes c)
    else Fault.elseWithoutIf.refuse lead.position
  | .clause part c => e.addClause deny part c
  | .jump => e.jump ⟨.jump, lead, []⟩
  | .result value =>
    if e.scopes.inMain then do
      let text ← returnedText e.scopes value
      return e.line ("return " ++ text ++ ";")
    else Fault.returnOutsideMain.refuse lead.position
  | .opening => e.openBlock deny
  | .closing => e.closeBlock lead.position

/-- Emits a statement that has been read. -/
def stepRead (deny : Bool) (e : Emission) (r : Statement.Reading) : Except Failure Emission :=
  if e.pending.isSome && !r.kind.continuesHeader then Fault.braceExpected.refuse r.lead.position
  else if e.scopes.depth = 0 && e.pending.isNone && !r.kind.isGlobal then
    Fault.outsideMain.refuse r.lead.position
  else perform deny e.closed { e with closed := none } r.lead r.content

/-- Emits statements that have been read, in order. -/
def runRead (deny : Bool) (e : Emission) : List Statement.Reading → Except Failure Emission
  | [] => .ok e
  | r :: rest => do
    let e ← e.stepRead deny r
    runRead deny e rest

variable {deny : Bool} {closed : Option Scope.Kind} {e e' : Emission} {s : Statement}
  {scopes : Scopes}

/-- A reading that succeeds is gone on with. -/
theorem ok_liftM_bind {α β : Type} (a : α) (f : α → Emitting β) :
    (liftM (Except.ok a : Except (Defect Malformed) α) : Emitting α) >>= f = f a := rfl

section Conditions

variable {keyword : Token} {run : List Token} {c : Expr}

/-- A condition is emitted as what has been read of it. -/
theorem condition_of_read (h : Statement.readCondition keyword run = .ok c) :
    condition scopes keyword run = conditionText scopes c := by
  simp only [Statement.readCondition, bind_eq_ok_iff, liftM_malformed_eq_ok_iff] at h
  obtain ⟨run', hrun, hparse⟩ := h
  rw [condition, hrun, ok_liftM_bind, hparse, ok_liftM_bind]
  rfl

/-- A condition that is emitted can be read. -/
theorem read_of_condition {text : String} (h : (condition scopes keyword run).outcome = .ok text) :
    ∃ c, Statement.readCondition keyword run = .ok c := by
  simp only [condition, Checked.outcome_bind_eq_ok_iff, outcome_monadLift_malformed] at h
  obtain ⟨run', hrun, c, hparse, -⟩ := h
  refine ⟨c, ?_⟩
  simp only [Statement.readCondition, bind_eq_ok_iff, liftM_malformed_eq_ok_iff]
  exact ⟨run', hrun, hparse⟩

end Conditions

section Loops

variable {keyword : Token} {run : List Token} {content : Statement.Content}

/-- What a loop header that can be read says, and how the header goes by it. -/
theorem loopHeader_of_read (scopes : Scopes) (h : Statement.readLoop keyword run = .ok content) :
    ∃ target start, content = .loop target start ∧
      loopHeader scopes keyword run = startedLoop scopes target start := by
  simp only [Statement.readLoop, bind_eq_ok_iff, liftM_malformed_eq_ok_iff] at h
  obtain ⟨run', hrun, h⟩ := h
  split at h
  · cases h
  · rename_i target equal initial hsplit
    simp only [bind_eq_ok_iff, liftM_malformed_eq_ok_iff] at h
    obtain ⟨initial', hinitial, start, hparse, heq⟩ := h
    cases heq
    refine ⟨target, start, rfl, ?_⟩
    rw [loopHeader, hrun, ok_liftM_bind, hsplit]
    dsimp only
    rw [hinitial, ok_liftM_bind, hparse, ok_liftM_bind]
    rfl

/-- A `for` header that is emitted can be read. -/
theorem read_of_loopHeader {header : LoopHeader}
    (h : (loopHeader scopes keyword run).outcome = .ok header) :
    ∃ content, Statement.readLoop keyword run = .ok content := by
  simp only [loopHeader, Checked.outcome_bind_eq_ok_iff, outcome_monadLift_malformed] at h
  obtain ⟨run', hrun, h⟩ := h
  split at h
  · simp at h
  · rename_i target equal initial hsplit
    simp only [Checked.outcome_bind_eq_ok_iff, outcome_monadLift_malformed] at h
    obtain ⟨initial', hinitial, start, hparse, -⟩ := h
    refine ⟨.loop target start, ?_⟩
    simp only [Statement.readLoop, bind_eq_ok_iff, liftM_malformed_eq_ok_iff]
    refine ⟨run', hrun, ?_⟩
    rw [hsplit]
    simp only [bind_eq_ok_iff, liftM_malformed_eq_ok_iff]
    exact ⟨initial', hinitial, start, hparse, rfl⟩

end Loops

/-- Nothing may stand behind a word that stands by itself. -/
theorem bare_eq_ok {word : String} {content own : Statement.Content} {rest : List Token}
    (h : Statement.bare word own rest = .ok content) : rest = [] ∧ content = own := by
  unfold Statement.bare at h
  split at h
  · cases h
    exact ⟨rfl, rfl⟩
  · cases h

section Statements

variable {content : Statement.Content}

/-- The header of an `if` or a `while` is that of its condition. -/
theorem headerOf_of_condition {c : Expr}
    (hlead : s.lead.kind = .keyword .ifWord ∨ s.lead.kind = .keyword .whileWord)
    (h : Statement.readCondition s.lead s.rest = .ok c) :
    headerOf scopes s = conditionHeader scopes s.lead c := by
  rcases hlead with hlead | hlead <;>
    simp only [headerOf, conditionHeader, hlead, condition_of_read h] <;> rfl

/-- A header that starts with neither word is that of a loop. -/
theorem headerOf_of_loop
    (hlead : s.lead.kind ≠ .keyword .ifWord ∧ s.lead.kind ≠ .keyword .whileWord) :
    headerOf scopes s = do return .loop (← loopHeader scopes s.lead s.rest) := by
  unfold headerOf
  split
  · rename_i hif
    exact absurd hif hlead.1
  · rename_i hwhile
    exact absurd hwhile hlead.2
  · rfl

/-- What is emitted for the header of a block goes by what it says: its condition, or the parts of
the `for` header that was read. -/
theorem header_of_content (hkind : s.kind = .header) (h : s.content = .ok content) :
    e.header deny s = e.perform deny closed s.lead content := by
  have hcondition : s.lead.kind = .keyword .ifWord ∨ s.lead.kind = .keyword .whileWord →
      (do return .condition (← Statement.readCondition s.lead s.rest) :
        Except Failure Statement.Content) = .ok content →
      e.header deny s = e.perform deny closed s.lead content := by
    intro hlead hread
    obtain ⟨c, hc, heq⟩ := bind_eq_ok_iff.1 hread
    cases heq
    rw [header, headerOf_of_condition hlead hc]
    rfl
  simp only [Statement.content, hkind, Statement.readHeader] at h
  split at h
  · rename_i hif
    exact hcondition (.inl hif) h
  · rename_i hwhile
    exact hcondition (.inr hwhile) h
  · rename_i hif hwhile
    obtain ⟨target, start, rfl, hloop⟩ := loopHeader_of_read e.scopes h
    rw [header, headerOf_of_loop ⟨hif, hwhile⟩, hloop]
    rfl

/-- An `else` is emitted as what has been read of it. -/
theorem alternative_of_content (hkind : s.kind = .alternative) (h : s.content = .ok content) :
    e.alternative deny closed s = e.perform deny closed s.lead content := by
  simp only [Statement.content, hkind] at h
  unfold Statement.readAlternative at h
  split at h
  · rename_i hrest
    cases h
    simp only [alternative, alternativeOf, hrest]
    rfl
  · rename_i next run hrest
    split at h
    · rename_i hif
      obtain ⟨c, hc, heq⟩ := bind_eq_ok_iff.1 h
      cases heq
      simp only [alternative, alternativeOf, hrest, if_pos hif, condition_of_read hc]
      rfl
    · cases h

/-- A `return` is emitted as what has been read of it, whether a value stands behind the word or
nothing does. -/
theorem result_of_content (hkind : s.kind = .result) (h : s.content = .ok content) :
    e.result s = e.perform deny closed s.lead content := by
  simp only [Statement.content, hkind] at h
  split at h
  · rename_i hrest
    cases h
    simp only [result, resultText, hrest]
    rfl
  · rename_i run hrest
    obtain ⟨c, hparse, heq⟩ := bind_eq_ok_iff.1 h
    cases heq
    have htext : resultText e.scopes s.rest = returnedText e.scopes (some c) := by
      unfold resultText
      split
      · rename_i hnone
        exact absurd hnone hrest
      · rw [liftM_malformed_eq_ok_iff.1 hparse]
        rfl
    rw [result, htext]
    rfl

/-- What is emitted for a statement goes by what the statement says, one case for each kind. Reading
it twice gives the same, so reading can be done beforehand. -/
theorem dispatch_of_content (h : s.content = .ok content) :
    dispatch deny closed e s = e.perform deny closed s.lead content := by
  cases hkind : s.kind with
  | header =>
    rw [dispatch, hkind]
    exact header_of_content hkind h
  | alternative =>
    rw [dispatch, hkind]
    exact alternative_of_content hkind h
  | result =>
    rw [dispatch, hkind]
    exact result_of_content hkind h
  | opening | closing =>
    simp only [Statement.content, hkind] at h
    cases h
    rw [dispatch, hkind]
    rfl
  | main | jump =>
    simp only [Statement.content, hkind] at h
    obtain ⟨hrest, rfl⟩ := bare_eq_ok h
    simp only [dispatch, hkind, start, jump, hrest]
    rfl
  | declaration | initialization =>
    simp only [Statement.content, hkind] at h
    obtain ⟨d, hd, heq⟩ := bind_eq_ok_iff.1 h
    cases heq
    simp only [dispatch, hkind, declaration, hd]
    rfl
  | operation =>
    simp only [Statement.content, hkind] at h
    obtain ⟨es, hes, heq⟩ := bind_eq_ok_iff.1 h
    cases heq
    simp only [dispatch, hkind, operation, hes]
    rfl
  | assignment =>
    simp only [Statement.content, hkind] at h
    obtain ⟨a, ha, heq⟩ := bind_eq_ok_iff.1 h
    cases heq
    simp only [dispatch, hkind, assignment, ha]
    rfl
  | bound | step =>
    simp only [Statement.content, hkind] at h
    obtain ⟨c, hc, heq⟩ := bind_eq_ok_iff.1 h
    cases heq
    simp only [dispatch, hkind, clause, hc]
    rfl

/-- A block header that is emitted can be read. -/
theorem content_of_header (h : e.header deny s = .ok e') :
    ∃ content, Statement.readHeader s.lead s.rest = .ok content := by
  obtain ⟨waiting, hwaiting, -⟩ := eq_of_header h
  unfold Statement.readHeader
  rcases headerOf_cases hwaiting with
    ⟨hlead, text, htext, -⟩ | ⟨hlead, text, htext, -⟩ | ⟨hif, hwhile, own, hown, -⟩
  · obtain ⟨c, hc⟩ := read_of_condition htext
    exact ⟨.condition c, by simp only [hlead, hc]; rfl⟩
  · obtain ⟨c, hc⟩ := read_of_condition htext
    exact ⟨.condition c, by simp only [hlead, hc]; rfl⟩
  · split
    · exact absurd ‹_› hif
    · exact absurd ‹_› hwhile
    · exact read_of_loopHeader hown

/-- An `else` that is emitted can be read. -/
theorem read_of_alternativeOf {header : Header} (h : (alternativeOf scopes s).outcome = .ok header) :
    ∃ content, Statement.readAlternative s.rest = .ok content := by
  rcases alternativeOf_cases h with ⟨hrest, -⟩ | ⟨next, run, text, hrest, hif, htext, -⟩
  · exact ⟨.alternative none, by rw [hrest]; rfl⟩
  · obtain ⟨c, hc⟩ := read_of_condition htext
    refine ⟨.alternative (some c), ?_⟩
    rw [hrest, Statement.readAlternative, if_pos hif, hc]
    rfl

/-- A statement that is emitted can be read: whatever its kind, emitting it starts with reading it,
and fails if that does. -/
theorem content_of_dispatch (h : dispatch deny closed e s = .ok e') :
    ∃ content, s.content = .ok content := by
  cases hkind : s.kind <;> simp only [dispatch, hkind] at h <;> simp only [Statement.content, hkind]
  case main => exact ⟨.main, by rw [(eq_of_start h).1]; rfl⟩
  case jump => exact ⟨.jump, by rw [(eq_of_jump h).1]; rfl⟩
  case declaration | initialization =>
    obtain ⟨d, _, _, hd, -⟩ := eq_of_declaration h
    exact ⟨.declaration d, by rw [hd]; rfl⟩
  case operation =>
    obtain ⟨es, _, hes, -⟩ := eq_of_operation h
    exact ⟨.operation es, by rw [hes]; rfl⟩
  case assignment =>
    obtain ⟨a, _, ha, -⟩ := eq_of_assignment h
    exact ⟨.assignment a, by rw [ha]; rfl⟩
  case bound =>
    obtain ⟨c, _, _, hc, -⟩ := eq_of_clause h
    exact ⟨.clause .bound c, by rw [hc]; rfl⟩
  case step =>
    obtain ⟨c, _, _, hc, -⟩ := eq_of_clause h
    exact ⟨.clause .step c, by rw [hc]; rfl⟩
  case opening => exact ⟨.opening, rfl⟩
  case closing => exact ⟨.closing, rfl⟩
  case header => exact content_of_header h
  case alternative =>
    obtain ⟨-, _, hwaiting, -⟩ := eq_of_alternative h
    exact read_of_alternativeOf hwaiting
  case result =>
    obtain ⟨-, text, htext, -⟩ := eq_of_result h
    rcases resultText_eq_ok htext with ⟨hrest, -⟩ | ⟨hrest, c, _, hc, -⟩
    · exact ⟨.result none, by rw [hrest]⟩
    · obtain ⟨first, run, hcons⟩ := List.exists_cons_of_ne_nil hrest
      rw [hcons] at hc ⊢
      exact ⟨.result (some c), by dsimp only; rw [hc]; rfl⟩

/-- Emitting a statement is reading it and emitting what was read, for which only the kind and the
first token of the statement are looked at again. -/
theorem stepRead_of_step (h : e.step deny s = .ok e') :
    ∃ r, s.read = .ok r ∧ e.stepRead deny r = .ok e' := by
  obtain ⟨content, hcontent⟩ := content_of_dispatch (dispatch_of_step h)
  refine ⟨⟨s.kind, s.lead, content⟩, by rw [Statement.read, hcontent]; rfl, ?_⟩
  rw [step, dispatch_of_content hcontent] at h
  exact h

/-- Emitting a program is reading its statements and emitting what was read. -/
theorem runRead_of_run {statements : List Statement} (h : run deny e statements = .ok e') :
    ∃ readings, List.Forall₂ (fun s r => s.read = .ok r) statements readings ∧
      e.runRead deny readings = .ok e' := by
  induction statements generalizing e with
  | nil =>
    cases h
    exact ⟨[], .nil, rfl⟩
  | cons s statements ih =>
    obtain ⟨e₁, hstep, hrun⟩ := run_cons h
    obtain ⟨r, hread, hstep⟩ := stepRead_of_step hstep
    obtain ⟨readings, hreadings, hrun⟩ := ih hrun
    refine ⟨r :: readings, .cons hread hreadings, ?_⟩
    rw [runRead, hstep]
    exact hrun

end Statements

end Emission

end Sprout
