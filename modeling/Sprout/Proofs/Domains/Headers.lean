import Sprout.Emission.Block
import Sprout.Proofs.Domains.Slices

namespace Sprout.Emission

open Token

variable {scopes : Scopes}

/-- Goes on with a reading of a run. -/
def parsed? {α : Type} (reading : Except (Option (Defect Malformed)) α) :
    Checked (Option Failure) α :=
  (Checked.lift reading).mapError (Option.map .malformed)

/-- The text of a condition. -/
def condition? (scopes : Scopes) (keyword : Token) (run : List Token) :
    Checked (Option Failure) String := do
  let run ← (liftM (require .condition keyword run) : Emitting (List Token)).mapError some
  let e ← parsed? (Expr.parse? run)
  let typed ← (liftM (e.value scopes) : Emitting Typed).mapError some
  if typed.type = .bool then pure typed.text
  else ((Fault.condition typed.type).raise e.position : Emitting String).mapError some

/-- The type of a loop variable: the type behind the colon that may follow its name. -/
def loopType? (scopes : Scopes) (start : Typed) (declaration : List Token) :
    Checked (Option Failure) Ty :=
  match declaration[1]? with
  | none => pure start.type
  | some colon =>
    if colon.kind = .colon then do
      let run ← Checked.demand (slice? 2 declaration.length declaration)
      let run ← (liftM (require .type colon run) : Emitting (List Token)).mapError some
      let e ← parsed? (Expr.parseType? run)
      (liftM (e.resolveType scopes) : Emitting Ty).mapError some
    else ((Fault.unexpectedInHeader colon.lexeme).raise colon.position : Emitting Ty).mapError some

/-- The header of a loop that declares its variable. -/
def declaringHeader? (scopes : Scopes) (keyword : Token) (declaration : List Token) (e : Expr)
    (start : Typed) : Checked (Option Failure) LoopHeader :=
  match declaredName? declaration with
  | none => (Fault.loopNameExpected.raise keyword.position : Emitting LoopHeader).mapError some
  | some name => do
    let type ← loopType? scopes start declaration
    if type.isNumeric then
      let text ← (liftM (start.converted type e.position) : Emitting String).mapError some
      pure
        { type := type.target
          name := Target.name name.lexeme
          start := text
          declares := some ⟨name.lexeme, type, name.position⟩
          shadowed := (scopes.lookup name.lexeme).map fun _ => name.lexeme }
    else ((Fault.loopVariable type).raise name.position : Emitting LoopHeader).mapError some

/-- The header of a loop that uses a variable declared before. -/
def reusingHeader? (scopes : Scopes) (target : List Token) (e : Expr) (start : Typed) :
    Checked (Option Failure) LoopHeader := do
  let named ← parsed? (Expr.parse? target)
  if named.name?.isNone then
    (Fault.loopVariableNotPlain.raise named.position : Emitting LoopHeader).mapError some
  else
    let typed ← (liftM (named.value scopes) : Emitting Typed).mapError some
    (liftM (typed.checkModifiable named.position) : Emitting Unit).mapError some
    if typed.type.isNumeric then
      let text ← (liftM (start.converted typed.type e.position) : Emitting String).mapError some
      pure { type := "", name := typed.text, start := text }
    else ((Fault.loopVariable typed.type).raise named.position : Emitting LoopHeader).mapError some

/-- The first clause of a `for` header. -/
def loopHeader? (scopes : Scopes) (keyword : Token) (run : List Token) :
    Checked (Option Failure) LoopHeader := do
  let run ← (liftM (require .loopVariable keyword run) : Emitting (List Token)).mapError some
  match findTop (· = .equal) 0 run with
  | none => (Fault.loopWithoutStart.raise keyword.position : Emitting LoopHeader).mapError some
  | some i => do
    let equal ← Checked.demand run[i]?
    let initial ← Checked.demand (slice? (i + 1) run.length run)
    let initial ← (liftM (require .initialValue equal initial) : Emitting (List Token)).mapError some
    let e ← parsed? (Expr.parse? initial)
    let first ← Checked.demand run[0]?
    if first.kind = .keyword .var then do
      let declaration ← Checked.demand (slice? 1 i run)
      (liftM (checkStart scopes declaration e) : Emitting Unit).mapError some
      let start ← (liftM (e.value scopes) : Emitting Typed).mapError some
      declaringHeader? scopes first declaration e start
    else do
      let start ← (liftM (e.value scopes) : Emitting Typed).mapError some
      let target ← Checked.demand (slice? 0 i run)
      reusingHeader? scopes target e start

/-- The block header that a statement starts: a condition, or else the first clause of a loop. -/
def headerOf? (scopes : Scopes) (s : Statement) : Checked (Option Failure) Header := do
  let keyword ← Checked.demand s.tokens[0]?
  let rest ← Checked.demand (slice? 1 s.tokens.length s.tokens)
  if keyword.kind = .keyword .ifWord then
    let text ← condition? scopes keyword rest
    pure (.block .branch ("if (" ++ text ++ ") ") false)
  else if keyword.kind = .keyword .whileWord then
    let text ← condition? scopes keyword rest
    pure (.block .loop ("while (" ++ text ++ ") ") false)
  else
    let header ← loopHeader? scopes keyword rest
    pure (.loop header)

/-- The header of an `else`. -/
def alternativeOf? (scopes : Scopes) (s : Statement) : Checked (Option Failure) Header :=
  match s.tokens[1]? with
  | none => pure (.block .alternative "else " true)
  | some next =>
    if next.kind = .keyword .ifWord then do
      let run ← Checked.demand (slice? 2 s.tokens.length s.tokens)
      let text ← condition? scopes next run
      pure (.block .branch ("else if (" ++ text ++ ") ") true)
    else ((Fault.unexpectedAfter next.lexeme "else").raise next.position : Emitting Header).mapError some

/-- What stands behind the first two members of a list can be sliced out of it. -/
theorem slice?_two {α : Type} (a b : α) (as : List α) :
    slice? 2 (a :: b :: as).length (a :: b :: as) = some as := by
  simp [slice?]

/-- A reading that reports all that is wrong crashes nothing. -/
theorem parsed?_eq {α : Type} (reading : Except (Defect Malformed) α) :
    parsed? (reading.mapError some) = (liftM reading : Emitting α).mapError some := by
  cases reading <;> rfl

variable {keyword : Token} {run : List Token} {e : Expr} {start : Typed}

/-- A part that is required to be there is taken as it is. -/
theorem outcome_require_eq_ok {part : Part} {run' : List Token}
    (h : ((liftM (require part keyword run) : Emitting (List Token)).mapError some).outcome =
      .ok run') : run' = run := by
  rw [Checked.outcome_mapError_eq_ok_iff, outcome_monadLift_malformed] at h
  exact require_eq_ok h

/-- A condition is read without a crash from tokens whose places fit 32 bits. -/
theorem condition?_eq (hrun : AllIn Position.Fits run) :
    condition? scopes keyword run = (condition scopes keyword run).mapError some := by
  rw [condition?, condition, Checked.mapError_bind]
  refine Checked.bind_congr_of_ok fun run' hrequire => ?_
  obtain rfl := outcome_require_eq_ok hrequire
  rw [Expr.parse?_eq hrun, parsed?_eq]
  simp only [Checked.mapError_bind]
  congr 1
  funext e
  congr 1
  funext typed
  split <;> rfl

/-- The type behind a colon is sliced inside the declaration, because the colon follows the name. -/
theorem loopType?_eq (name : Token) (hrun : AllIn Position.Fits run) :
    loopType? scopes start (name :: run) = (loopType scopes start run).mapError some := by
  cases run with
  | nil => rfl
  | cons colon run =>
    rw [loopType?, loopType]
    simp only [List.getElem?_cons_succ, List.getElem?_cons_zero, slice?_two, Checked.demand_some_bind]
    split
    · rw [Checked.mapError_bind]
      refine Checked.bind_congr_of_ok fun run' hrequire => ?_
      obtain rfl := outcome_require_eq_ok hrequire
      have htype : AllIn Position.Fits run' := hrun.of_subset (List.subset_cons_self colon run')
      rw [Expr.parseType?_eq htype, parsed?_eq, Checked.mapError_bind]
    · rfl

/-- A loop variable is declared without a crash: its type stands behind its name and a colon, both
of which are there before the run is sliced behind them. -/
theorem declaringHeader?_eq {declaration : List Token} (hrun : AllIn Position.Fits declaration) :
    declaringHeader? scopes keyword declaration e start =
      (declaringHeader scopes keyword declaration e start).mapError some := by
  rw [declaringHeader?, declaringHeader]
  cases declaration with
  | nil => rfl
  | cons first run =>
    cases declaredName? (first :: run) with
    | none => rfl
    | some name =>
      simp only [loopType?_eq first (hrun.of_subset (List.subset_cons_self first run)),
        List.drop_succ_cons, List.drop_zero, Checked.mapError_bind]
      congr 1
      funext type
      split
      · simp only [Checked.mapError_bind, Checked.mapError_pure]
      · rfl

/-- A loop that reuses a variable is read without a crash from tokens whose places fit 32 bits. -/
theorem reusingHeader?_eq {target : List Token} (hrun : AllIn Position.Fits target) :
    reusingHeader? scopes target e start =
      (reusingHeader scopes target e start).mapError some := by
  rw [reusingHeader?, reusingHeader, Expr.parse?_eq hrun, parsed?_eq, Checked.mapError_bind]
  congr 1
  funext named
  split
  · rfl
  · simp only [Checked.mapError_bind]
    congr 1
    funext typed
    congr 1
    funext _
    split
    · simp only [Checked.mapError_bind, Checked.mapError_pure]
    · rfl

/-- The first clause of a `for` header is sliced inside its tokens: the equal sign was found behind
the keyword, and the colon in front of the sign. -/
theorem loopHeader?_eq (keyword : Token) (hrun : AllIn Position.Fits run) :
    loopHeader? scopes keyword run = (loopHeader scopes keyword run).mapError some := by
  rw [loopHeader?, loopHeader, Checked.mapError_bind]
  refine Checked.bind_congr_of_ok fun run' hrequire => ?_
  obtain rfl := outcome_require_eq_ok hrequire
  rcases findTop_cases (· = .equal) run' with
    ⟨hfind, hsplit⟩ | ⟨target, equal, initial, hfind, hsplit, rfl⟩
  · simp only [hfind, hsplit]
  · obtain ⟨htarget, -, hinitial⟩ := hrun.of_splitTop hsplit
    simp only [hfind, hsplit, getElem?_at, slice?_behind, Checked.demand_some_bind]
    rw [Checked.mapError_bind]
    refine Checked.bind_congr_of_ok fun initial' hrequire => ?_
    obtain rfl := outcome_require_eq_ok hrequire
    rw [Expr.parse?_eq hinitial, parsed?_eq, Checked.mapError_bind]
    congr 1
    funext e
    -- Whatever does not start with a declaration names a variable of its own.
    have hreusing : (do
          let start ← (liftM (e.value scopes) : Emitting Typed).mapError some
          let target ← Checked.demand (slice? 0 target.length (target ++ equal :: initial'))
          reusingHeader? scopes target e start) =
        (do
          let start ← e.value scopes
          reusingHeader scopes target e start : Emitting LoopHeader).mapError some := by
      simp only [slice?_to, Checked.demand_some_bind, reusingHeader?_eq htarget,
        Checked.mapError_bind]
    cases target with
    | nil =>
      have hequal : equal.kind ≠ .keyword .var := by
        have hkind : equal.kind = .equal := by simpa using (eq_append_of_splitTop hsplit).2
        simp [hkind]
      rw [List.nil_append, List.getElem?_cons_zero, Checked.demand_some_bind, if_neg hequal]
      exact hreusing
    | cons first declaration =>
      rw [List.cons_append, List.getElem?_cons_zero, Checked.demand_some_bind]
      dsimp only
      split
      · have hdeclaration : slice? 1 (first :: declaration).length
            (first :: (declaration ++ equal :: initial')) = some declaration := by
          simp [slice?]
        have hnames : AllIn Position.Fits declaration :=
          htarget.of_subset (List.subset_cons_self first declaration)
        simp only [hdeclaration, Checked.demand_some_bind, declaringHeader?_eq hnames,
          Checked.mapError_bind]
      · exact hreusing

/-- A block header is read inside its tokens. Where they stand and end in 32 bits, what is wrong with
them is reported. -/
theorem headerOf?_eq {s : Statement} (hs : s.StandsIn Position.Fits) :
    headerOf? scopes s = (headerOf scopes s).mapError some := by
  have hlead : s.tokens[0]? = some s.lead := rfl
  have hrest : slice? 1 s.tokens.length s.tokens = some s.rest := slice?_tail s.lead s.rest
  rw [headerOf?, hlead, hrest, Checked.demand_some_bind, Checked.demand_some_bind]
  simp only [condition?_eq hs.rest, loopHeader?_eq s.lead hs.rest]
  split
  · rename_i hif
    simp only [headerOf, hif, Checked.mapError_bind, Checked.mapError_pure]
  · rename_i hif
    split
    · rename_i hwhile
      simp only [headerOf, hwhile, Checked.mapError_bind, Checked.mapError_pure]
    · rename_i hwhile
      rw [headerOf]
      split
      · exact absurd ‹_› hif
      · exact absurd ‹_› hwhile
      · simp only [Checked.mapError_bind, Checked.mapError_pure]

/-- The header of an `else` is read without a crash: the condition of an `else if` is sliced behind
the two words, which are there. -/
theorem alternativeOf?_eq {s : Statement} (hs : s.StandsIn Position.Fits) :
    alternativeOf? scopes s = (alternativeOf scopes s).mapError some := by
  have hrest := hs.rest
  obtain ⟨kind, lead, rest⟩ := s
  rw [alternativeOf?, alternativeOf]
  cases rest with
  | nil => rfl
  | cons next run =>
    have hrun : AllIn Position.Fits run := hrest.of_subset (List.subset_cons_self next run)
    simp only [Statement.tokens, List.getElem?_cons_succ, List.getElem?_cons_zero, slice?_two,
      Checked.demand_some_bind, condition?_eq hrun]
    split
    · simp only [Checked.mapError_bind, Checked.mapError_pure]
    · rfl

end Sprout.Emission
