import Sprout.Compile
import Sprout.Proofs.Emission.Acceptance
import Sprout.Proofs.Warnings

namespace Sprout

section Denies

variable {ε ε' α β : Type}

/-- `Denies refuses earlier diagnostics lenient strict`: behind the warnings `earlier`, the strict
outcome is what denying warnings makes of the lenient one, whose results record `diagnostics`. What
`refuses` a warning are the errors that are raised for it. -/
inductive Denies (refuses : Diagnostic → ε → Prop) (earlier : List Diagnostic)
    (diagnostics : α → List Diagnostic) : Except ε α → Except ε α → Prop
  | silent {a} (hsilent : diagnostics a = earlier) :
      Denies refuses earlier diagnostics (.ok a) (.ok a)
  | warned {a first more error} (hwarned : diagnostics a = earlier ++ first :: more)
      (hwarns : ∀ d ∈ first :: more, d.Warns) (hrefuses : refuses first error) :
      Denies refuses earlier diagnostics (.ok a) (.error error)
  | refused {error error'} : Denies refuses earlier diagnostics (.error error) (.error error')

namespace Denies

variable {refuses : Diagnostic → ε → Prop} {refuses' : Diagnostic → ε' → Prop}
  {earlier : List Diagnostic} {diagnostics : α → List Diagnostic}
  {diagnostics' : β → List Diagnostic} {lenient strict : Except ε α}

/-- Nothing is denied where nothing warns. -/
theorem same {x : Except ε α} (h : ∀ a, x = .ok a → diagnostics a = earlier) :
    Denies refuses earlier diagnostics x x := by
  cases x with
  | error => exact .refused
  | ok a => exact .silent (h a rfl)

/-- What follows a denied warning does not happen; what it would have warned of comes later. -/
theorem bind {next next' : α → Except ε β} (h : Denies refuses earlier diagnostics lenient strict)
    (hnext : ∀ a, Denies refuses (diagnostics a) diagnostics' (next a) (next' a)) :
    Denies refuses earlier diagnostics' (lenient >>= next) (strict >>= next') := by
  cases h with
  | @silent a hsilent => exact hsilent ▸ hnext a
  | @warned a first more error hwarned hwarns hrefuses =>
    change Denies refuses earlier diagnostics' (next a) (.error error)
    have hrest := hnext a
    generalize next a = x, next' a = y at hrest
    cases hrest with
    | silent hsilent => exact .warned (hsilent.trans hwarned) hwarns hrefuses
    | warned hmore hwarns' =>
      rw [hwarned, List.append_assoc, List.cons_append] at hmore
      refine .warned hmore ?_ hrefuses
      rw [← List.cons_append, List.forall_mem_append]
      exact ⟨hwarns, hwarns'⟩
    | refused => exact .refused
  | refused => exact .refused

/-- Both runs start with a computation that does not warn. -/
theorem behind {x : Except ε α} {next next' : α → Except ε β}
    (hnext : ∀ a, x = .ok a → Denies refuses earlier diagnostics' (next a) (next' a)) :
    Denies refuses earlier diagnostics' (x >>= next) (x >>= next') := by
  cases x with
  | error => exact .refused
  | ok a => exact hnext a rfl

/-- Denial is still denial when refusals are seen differently, as long as the refusal for a warning
is still one for it. -/
theorem mapError {f : ε → ε'} (h : Denies refuses earlier diagnostics lenient strict)
    (hrefuses : ∀ d error, d.Warns → refuses d error → refuses' d (f error)) :
    Denies refuses' earlier diagnostics (lenient.mapError f) (strict.mapError f) := by
  cases h with
  | silent hsilent => exact .silent hsilent
  | warned hwarned hwarns hrefused =>
    exact .warned hwarned hwarns (hrefuses _ _ (hwarns _ (List.mem_cons_self ..)) hrefused)
  | refused => exact .refused

end Denies

end Denies

/-- The violation that a denied warning is. -/
def Diagnostic.denial (d : Diagnostic) : Violation :=
  ⟨.denied d.message, d.position⟩

namespace Emission

variable (e : Emission) (s : Statement)

/-- The strict outcome of emitting something is what denying warnings makes of the lenient one. -/
abbrev DeniesViolation (earlier : List Diagnostic) (lenient strict : Except Violation Emission) :
    Prop :=
  Denies (fun d v => v = d.denial) earlier diagnostics lenient strict

/-- The same for the emission of a statement. -/
abbrev DeniesFailure (earlier : List Diagnostic) (lenient strict : Except Failure Emission) : Prop :=
  Denies (fun d failure => failure = .violation d.denial) earlier diagnostics lenient strict

/-- Warnings are recorded, or the first of them is what the run is refused for. -/
theorem report_denies {warnings : List Diagnostic} (h : ∀ d ∈ warnings, d.Warns) :
    DeniesViolation e.diagnostics (e.report false warnings) (e.report true warnings) := by
  cases warnings with
  | nil => exact .silent (List.append_nil _)
  | cons first more => exact .warned rfl h rfl

/-- A name that hides another one is declared with a warning, or the run is refused for that
warning. -/
theorem declare_denies (name : String) (symbol : Symbol) (position : Position) :
    DeniesViolation e.diagnostics (e.declare false name symbol position)
      (e.declare true name symbol position) := by
  refine .behind fun (declared, scopes) _ => ?_
  cases declared with
  | fresh => exact .silent rfl
  | shadowing =>
    refine report_denies { e with scopes } fun d hd => ?_
    rw [List.mem_singleton.1 hd]
    exact ⟨_, _, _, rfl⟩

variable {e} in
/-- A violation that denies a warning does so as a failure of a statement. -/
theorem DeniesViolation.lift {earlier : List Diagnostic} {lenient strict : Except Violation Emission}
    (h : DeniesViolation earlier lenient strict) :
    DeniesFailure earlier (liftM lenient) (liftM strict) :=
  h.mapError fun _ _ _ hrefused => congrArg Failure.violation hrefused

/-- The warnings of a reading are denied when it is settled. -/
theorem settle_denies {α : Type} {checked : Emitting α} (h : checked.Narrows) :
    Denies (fun d failure => failure = .violation d.denial) e.diagnostics
      (fun settled => settled.2.diagnostics) (e.settle false checked) (e.settle true checked) := by
  refine .behind fun value _ => ?_
  refine .bind (report_denies e fun d hd => (h d hd).warns).lift fun reported => ?_
  exact .silent rfl

/-- The names of a declaration are declared alike up to the first warning, by induction on the
names. -/
theorem bind_denies (mutable : Bool) (bindings : List Binding) :
    DeniesViolation e.diagnostics (e.bind false mutable bindings) (e.bind true mutable bindings) := by
  induction bindings generalizing e with
  | nil => exact .silent rfl
  | cons b bindings ih =>
    refine .bind ((declare_denies e _ _ _).mapError fun d v hwarns hrefused => ?_) fun e' => ih e'
    obtain ⟨code, message, position, rfl⟩ := hwarns
    rw [hrefused]
    rfl

/-- A declaration goes the same way with warnings and without, up to the first one. -/
theorem declaration_denies :
    DeniesFailure e.diagnostics (e.declaration false s) (e.declaration true s) := by
  refine .behind fun d _ => .behind fun _ _ => ?_
  refine .bind (settle_denies e (by simp)) fun (plan, settled) => ?_
  exact .bind (bind_denies settled _ plan.bindings).lift fun bound => .silent rfl

/-- An assignment goes the same way up to the first warning. -/
theorem assignment_denies :
    DeniesFailure e.diagnostics (e.assignment false s) (e.assignment true s) :=
  .behind fun _ _ => .bind (settle_denies e (by simp)) fun _ => .silent rfl

/-- Expressions evaluated for their effect go the same way up to the first warning. -/
theorem operation_denies :
    DeniesFailure e.diagnostics (e.operation false s) (e.operation true s) :=
  .behind fun _ _ => .bind (settle_denies e (by simp)) fun _ => .silent rfl

/-- A block header goes the same way up to the first warning. -/
theorem header_denies : DeniesFailure e.diagnostics (e.header false s) (e.header true s) :=
  .bind (settle_denies e (by simp)) fun _ => .silent rfl

/-- An `else` goes the same way up to the first warning. -/
theorem alternative_denies (closed : Option Scope.Kind) :
    DeniesFailure e.diagnostics (e.alternative false closed s) (e.alternative true closed s) := by
  unfold alternative
  split
  · exact .bind (settle_denies e (by simp)) fun _ => .silent rfl
  · exact .refused

/-- A clause of a loop goes the same way up to the first warning. -/
theorem clause_denies (part : Clause) :
    DeniesFailure e.diagnostics (e.clause false part s) (e.clause true part s) := by
  refine .behind fun expr _ => .bind (settle_denies e (by simp)) fun (typed, settled) => .same ?_
  intro e' h
  dsimp only at h
  split at h
  · split at h
    · cases h
    · cases h
      rfl
  · cases h

/-- The brace of a loop may warn about what the loop variable hides. -/
theorem openLoop_denies (header : LoopHeader) :
    DeniesFailure e.diagnostics (e.openLoop false header) (e.openLoop true header) := by
  unfold openLoop
  split
  · exact .refused
  · dsimp only
    split
    · exact .silent rfl
    · exact (declare_denies (e.enter .loop _) _ _ _).lift

/-- An opening brace goes the same way up to the first warning. Only that of a loop has one. -/
theorem openBlock_denies : DeniesFailure e.diagnostics (e.openBlock false) (e.openBlock true) := by
  unfold openBlock
  dsimp only
  split
  · exact .silent rfl
  · refine .same fun e' h => ?_
    obtain ⟨declared, scopes, -, rfl⟩ := eq_of_openMain h
    rfl
  · refine .silent ?_
    unfold extend
    split <;> rfl
  · exact .silent rfl
  · exact openLoop_denies { e with pending := none } _

section Silent

variable {e s} {e' : Emission}

/-- The word `main` warns about nothing. -/
theorem diagnostics_of_start (h : e.start s = .ok e') : e'.diagnostics = e.diagnostics := by
  obtain ⟨-, -, -, rfl⟩ := eq_of_start h
  rfl

/-- A `break` or a `continue` warns about nothing. -/
theorem diagnostics_of_jump (h : e.jump s = .ok e') : e'.diagnostics = e.diagnostics := by
  obtain ⟨-, -, rfl⟩ := eq_of_jump h
  rfl

/-- The warnings about a result are not recorded. -/
theorem diagnostics_of_result (h : e.result s = .ok e') : e'.diagnostics = e.diagnostics := by
  obtain ⟨-, text, -, rfl⟩ := eq_of_result h
  rfl

/-- A closing brace warns about nothing. -/
theorem diagnostics_of_closeBlock {position : Position} (h : e.closeBlock position = .ok e') :
    e'.diagnostics = e.diagnostics := by
  obtain ⟨scope, scopes, inner, -, ⟨-, rfl⟩ | ⟨-, rfl⟩, rfl⟩ := eq_of_closeBlock h <;> rfl

end Silent

/-- A statement warns in one run of what it is refused for in the other. -/
theorem step_denies : DeniesFailure e.diagnostics (e.step false s) (e.step true s) := by
  unfold step
  split
  · exact .refused
  · split
    · exact .refused
    · unfold dispatch
      split
      · exact .same fun _ h => (diagnostics_of_start h :)
      · exact declaration_denies { e with closed := none } s
      · exact declaration_denies { e with closed := none } s
      · exact operation_denies { e with closed := none } s
      · exact assignment_denies { e with closed := none } s
      · exact header_denies { e with closed := none } s
      · exact alternative_denies { e with closed := none } s _
      · exact clause_denies { e with closed := none } s _
      · exact clause_denies { e with closed := none } s _
      · exact .same fun _ h => (diagnostics_of_jump h :)
      · exact .same fun _ h => (diagnostics_of_result h :)
      · exact openBlock_denies { e with closed := none }
      · exact .same fun _ h => (diagnostics_of_closeBlock h :)

/-- A run takes one step and goes on from where it led. -/
theorem run_cons_eq (deny : Bool) (rest : List Statement) :
    run deny e (s :: rest) =
      ((e.step deny s).mapError fun failure => (failure, s)) >>= fun e' => run deny e' rest := by
  rw [run]
  cases e.step deny s <;> rfl

/-- So does a whole program: the runs part at the first warning. -/
theorem run_denies (statements : List Statement) :
    Denies (fun d error => error.1 = Failure.violation d.denial) e.diagnostics diagnostics
      (run false e statements) (run true e statements) := by
  induction statements generalizing e with
  | nil => exact .silent rfl
  | cons s rest ih =>
    rw [run_cons_eq, run_cons_eq]
    exact .bind ((step_denies e s).mapError fun _ _ _ hrefused => hrefused) fun e' => ih e'

end Emission

namespace Source

variable (source : Source)

/-- `Refuses source d error`: a compilation of the source ends with the error because the warning `d`
is denied. -/
def Refuses (d : Diagnostic) (error : CompileError) : Prop :=
  ∃ position text, d.position = some position ∧
    error = .semantic source (.denied d.message) position text

/-- A program that is emitted with warnings and one that is emitted with warnings denied agree up to
the first warning. -/
theorem emission_denies (statements : List Statement) :
    Denies source.Refuses [] Emission.diagnostics (source.emission false statements)
      (source.emission true statements) := by
  refine .bind ((Emission.run_denies {} statements).mapError ?_) fun e => .same ?_
  · rintro d ⟨_, s⟩ ⟨code, message, position, rfl⟩ rfl
    exact ⟨position, s.text, rfl, rfl⟩
  · intro e' h
    split at h
    · cases h
    · cases h
      rfl

/-- What a compilation records besides warnings: how many tokens and statements there are. -/
def summaries (tokens statements : Nat) : List Diagnostic :=
  [.summary source.name tokens "tokens", .summary source.name statements "instructions"]

/-- The two summaries in front of the diagnostics are no warnings. -/
theorem severity_of_summaries (tokens statements : Nat) :
    ∀ d ∈ source.summaries tokens statements, d.severity ≠ .warning := by
  simp [summaries, Diagnostic.summary]

/-- The two compilations of a source, and the counts that the lenient one records. They read the
same tokens and statements, so only the emission can tell them apart. -/
theorem compile_denies (options : Options) :
    ∃ tokens statements, Denies source.Refuses (source.summaries tokens statements)
      Artifact.diagnostics (source.compile { options with denyWarnings := false })
      (source.compile { options with denyWarnings := true }) := by
  unfold compile
  cases source.significant with
  | error => exact ⟨0, 0, .refused⟩
  | ok tokens =>
    refine ⟨tokens.length, ?_⟩
    change ∃ count, Denies _ _ _ (source.statements tokens >>= _) (source.statements tokens >>= _)
    cases source.statements tokens with
    | error => exact ⟨0, .refused⟩
    | ok statements =>
      refine ⟨statements.length, ?_⟩
      have h := emission_denies source statements
      change Denies _ _ _ (source.emission false statements >>= _)
        (source.emission true statements >>= _)
      generalize source.emission false statements = lenient,
        source.emission true statements = strict at h
      cases h with
      | @silent e hsilent => exact .silent (by simp [summaries, hsilent])
      | @warned e first more error hwarned hwarns hrefuses =>
        exact .warned (by simp [summaries, hwarned]) hwarns hrefuses
      | refused => exact .refused

end Source

/-- What warns has the severity of a warning. -/
theorem Diagnostic.Warns.severity {d : Diagnostic} (h : d.Warns) : d.severity = .warning := by
  obtain ⟨code, message, position, rfl⟩ := h
  rfl

/-- How the refusal for a denied warning is worded. -/
theorem Source.message_of_denied (source : Source) (d : Diagnostic) (position : Position)
    (text : String) :
    (CompileError.semantic source (.denied d.message) position text).message =
      source.name ++ ":" ++ toString position.line ++ ":" ++ toString position.column ++ ": " ++
        d.message ++ " (warnings are denied)" := by
  change source.describe position ++ ": " ++ (d.message ++ " (warnings are denied)") = _
  simp only [describe, Position.render, String.append_assoc]

/-- Denying warnings changes the verdict and nothing else. With warnings denied, a source compiles to
an artifact exactly if it does so without, and the artifact has no warning. If there are warnings, the
strict compilation is refused where the first one stands and with its text; and whatever the lenient
compilation refuses, the strict one refuses too. -/
theorem Source.compile_strict (source : Source) (options : Options) :
    (∀ artifact, source.compile { options with denyWarnings := true } = .ok artifact ↔
      source.compile { options with denyWarnings := false } = .ok artifact ∧
        ∀ d ∈ artifact.diagnostics, d.severity ≠ .warning) ∧
    (∀ artifact first, source.compile { options with denyWarnings := false } = .ok artifact →
      artifact.diagnostics.find? (·.severity = .warning) = some first →
      ∃ position fault text, first.position = some position ∧
        source.compile { options with denyWarnings := true } =
          .error (.semantic source fault position text) ∧
        (CompileError.semantic source fault position text).message =
          source.name ++ ":" ++ toString position.line ++ ":" ++ toString position.column ++ ": " ++
            first.message ++ " (warnings are denied)") ∧
    (∀ error, source.compile { options with denyWarnings := false } = .error error →
      ∃ error', source.compile { options with denyWarnings := true } = .error error') := by
  obtain ⟨tokens, statements, h⟩ := source.compile_denies options
  generalize source.compile { options with denyWarnings := false } = lenient,
    source.compile { options with denyWarnings := true } = strict at h ⊢
  cases h with
  | @silent artifact hsilent =>
    have hcalm : ∀ d ∈ artifact.diagnostics, d.severity ≠ .warning :=
      hsilent ▸ source.severity_of_summaries tokens statements
    refine ⟨fun other => ⟨?_, And.left⟩, ?_, by simp⟩
    · rintro ⟨⟩
      exact ⟨rfl, hcalm⟩
    · rintro _ first ⟨⟩ hfirst
      have hwarning := List.find?_some hfirst
      exact absurd (of_decide_eq_true hwarning) (hcalm first (List.mem_of_find?_eq_some hfirst))
  | @warned artifact first more error hwarned hwarns hrefuses =>
    obtain ⟨position, text, hposition, rfl⟩ := hrefuses
    -- The counts in front are no warnings, so the first warning is the one that the strict run
    -- refuses.
    have hfirst : artifact.diagnostics.find? (·.severity = .warning) = some first := by
      have hnone : (source.summaries tokens statements).find? (·.severity = .warning) = none := rfl
      have hwarning : first.severity = .warning := (hwarns first (List.mem_cons_self ..)).severity
      simp [hwarned, List.find?_append, hnone, hwarning]
    refine ⟨fun other => ⟨by simp, ?_⟩, ?_, by simp⟩
    · rintro ⟨⟨⟩, hcalm⟩
      have hwarning := List.find?_some hfirst
      exact absurd (of_decide_eq_true hwarning) (hcalm first (List.mem_of_find?_eq_some hfirst))
    · rintro _ d ⟨⟩ hd
      rw [hfirst] at hd
      cases hd
      exact ⟨position, .denied first.message, text, hposition, rfl,
        source.message_of_denied first position text⟩
  | refused => exact ⟨by simp, by simp, fun _ _ => ⟨_, rfl⟩⟩

/-- A program that narrows a constant and then hides it. -/
private def narrowedAndHidden : Source :=
  ⟨"narrowed", "var a:f32=1.5;main\x7bvar a=1;\x7d"⟩

/-- The first of the two warnings is the one that the strict compilation is refused for. -/
theorem narrowedAndHidden_compile_strict :
    ∃ artifact first, narrowedAndHidden.compile { indent := 2, denyWarnings := false } = .ok artifact ∧
      artifact.diagnostics.find? (·.severity = .warning) = some first ∧
      ∃ position fault text, first.position = some position ∧
        narrowedAndHidden.compile { indent := 2, denyWarnings := true } =
          .error (.semantic narrowedAndHidden fault position text) ∧
        (CompileError.semantic narrowedAndHidden fault position text).message =
          "narrowed" ++ ":" ++ toString position.line ++ ":" ++ toString position.column ++ ": " ++
            first.message ++ " (warnings are denied)" := by
  have hwarns : ((narrowedAndHidden.compile { indent := 2, denyWarnings := false }).toOption.bind
      fun artifact => artifact.diagnostics.find? (·.severity = .warning)).isSome = true := by
    decide +kernel
  obtain ⟨first, hfirst⟩ := Option.isSome_iff_exists.1 hwarns
  obtain ⟨artifact, hcompile, hfirst⟩ := Option.bind_eq_some_iff.1 hfirst
  have hcompile := eq_ok_of_toOption hcompile
  exact ⟨artifact, first, hcompile, hfirst,
    (narrowedAndHidden.compile_strict { indent := 2 }).2.1 artifact first hcompile hfirst⟩

end Sprout
