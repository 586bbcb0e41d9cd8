import Sprout.Proofs.Effects.Statements
import Sprout.Proofs.Emission.Acceptance
import Sprout.Proofs.Typing.Steps

namespace Sprout

namespace Checked

/-- A check warns of nothing. The only warning inside an expression is about an element that is
pushed and does not fit without narrowing, and pushing gives no value; no other step takes an
operand without a value. -/
def Silent {ε α : Type} (x : Checked ε α) : Prop :=
  x.warnings = []

section Checks

variable {ε ε' α β : Type}

/-- A result by itself is silent. -/
@[simp] theorem silent_pure (a : α) : (pure a : Checked ε α).Silent := rfl

@[simp] theorem silent_fail (e : ε) : (fail e : Checked ε α).Silent := rfl

/-- What can only be refused is silent. -/
@[simp] theorem silent_lift (x : Except ε α) : (lift x).Silent := rfl

/-- A check is as silent when its refusals are seen differently. -/
@[simp] theorem silent_mapError_iff {f : ε → ε'} {x : Checked ε α} :
    (x.mapError f).Silent ↔ x.Silent :=
  Iff.rfl

/-- A check that goes on with another one is silent if both are. -/
@[simp] theorem silent_bind_iff {x : Checked ε α} {f : α → Checked ε β} :
    (x >>= f).Silent ↔ x.Silent ∧ ∀ a, x.outcome = .ok a → (f a).Silent := by
  change (x.andThen f).Silent ↔ _
  unfold andThen Silent
  cases x.outcome with
  | error e => simp
  | ok a => simp

/-- A choice is silent if both of its branches are, each under its own condition. -/
@[simp] theorem silent_ite_iff {c : Prop} [Decidable c] {x y : Checked ε α} :
    (if c then x else y).Silent ↔ (c → x.Silent) ∧ (¬ c → y.Silent) := by
  split <;> simp [*]

end Checks

variable {α : Type}

/-- A refusal is silent. -/
@[simp] theorem silent_raise (fault : Fault) (position : Position) :
    (fault.raise position : Check α).Silent := rfl

/-- A check of an expression is as silent as part of a statement. -/
@[simp] theorem silent_monadLift_iff {x : Check α} : (liftM x : Emitting α).Silent ↔ x.Silent :=
  Iff.rfl

/-- Reading tokens is silent. -/
@[simp] theorem silent_monadLift_malformed (x : Except (Defect Malformed) α) :
    (liftM x : Emitting α).Silent := rfl

end Checked

namespace Ty

variable {type : Ty}

/-- What has a numeric type has a value. -/
theorem ne_void_of_isNumeric (h : type.isNumeric = true) : type ≠ .void := by
  rintro rfl
  cases h

/-- What has a type of whole numbers has a value. -/
theorem ne_void_of_isInteger (h : type.isInteger = true) : type ≠ .void := by
  rintro rfl
  cases h

/-- Whatever is called has a value. -/
theorem ne_void_of_accepts {receiver : Builtin.Receiver}
    (h : receiver.accepts (some type) = true) : type ≠ .void := by
  rintro rfl
  cases receiver <;> cases h

/-- Whatever has elements has a value. -/
theorem ne_void_of_elementType {element : Ty} (h : Typed.elementType? type = some element) :
    type ≠ .void := by
  rintro rfl
  cases h

/-- Only values can be compared. -/
theorem ne_void_of_areComparable {op : Comparison} {left right : Ty}
    (h : Typed.areComparable op left right = true) : left ≠ .void ∧ right ≠ .void := by
  simp only [Typed.areComparable, Bool.or_eq_true, Bool.and_eq_true, decide_eq_true_eq] at h
  rcases h with (⟨hleft, hright⟩ | ⟨rfl, rfl | rfl⟩) | ⟨⟨rfl, rfl⟩, -⟩
  · exact ⟨ne_void_of_isNumeric hleft, ne_void_of_isNumeric hright⟩
  all_goals simp

/-- Operators have operands with values: an operator that has a result looks for numbers, for truth
values or for equal types that can be compared, and `void` is none of these. -/
theorem ne_void_of_resultType {op : BinaryOp} {left right result : Ty}
    (h : Typed.resultType op left right = some result) : left ≠ .void ∧ right ≠ .void := by
  unfold Typed.resultType at h
  split at h
  · obtain ⟨hbool, -⟩ := Option.ite_none_right_eq_some.1 h
    obtain ⟨rfl, rfl⟩ := by simpa using hbool
    simp
  · obtain ⟨hcomparable, -⟩ := Option.ite_none_right_eq_some.1 h
    exact ne_void_of_areComparable hcomparable
  · split at h
    · rename_i hadd
      simp only [Bool.or_eq_true, Bool.and_eq_true, decide_eq_true_eq] at hadd
      obtain ⟨⟨-, rfl⟩, rfl | rfl⟩ := hadd <;> simp
    · split at h
      · rename_i a b _
        obtain ⟨common, hcommon, -⟩ := Option.map_eq_some_iff.1 h
        constructor <;> rintro ⟨rfl⟩
        · cases hcommon
        · cases a <;> cases hcommon
      · cases h

end Ty

/-- Parameters of numbers take numbers only, and never by narrowing, by induction on the
parameters. -/
theorem Builtin.isNumeric_of_bind {item : Option Ty} {params : List Param} {args : List Ty}
    {index : Nat} {narrowed : List Nat} (hparams : ∀ param ∈ params, param = .int ∨ param = .num)
    (h : bind item none index params args = some narrowed) :
    narrowed = [] ∧ ∀ arg ∈ args, arg.isNumeric = true := by
  have haccepts : ∀ (param : Param) (arg : Ty), param = .int ∨ param = .num →
      param.accepts item arg = .exact ∧ arg.isNumeric = true ∨
        param.accepts item arg = .incompatible := by
    rintro param arg (rfl | rfl)
    · cases hinteger : arg.isInteger with
      | false => exact .inr (by simp [Param.accepts, hinteger])
      | true =>
        refine .inl ⟨by simp [Param.accepts, hinteger], ?_⟩
        cases arg with
        | primitive p => simp [Ty.isNumeric, Primitive.isNumeric, show p.isInteger = true from hinteger]
        | _ => cases hinteger
    · cases hnumeric : arg.isNumeric <;> simp [Param.accepts, hnumeric]
  induction params generalizing args index narrowed with
  | nil =>
    cases args with
    | nil =>
      cases h
      simp
    | cons => cases h
  | cons param params ih =>
    rw [List.forall_mem_cons] at hparams
    cases args with
    | nil => cases h
    | cons arg args =>
      rw [bind] at h
      rcases haccepts param arg hparams.1 with ⟨hexact, hnumeric⟩ | hincompatible
      · rw [hexact] at h
        obtain ⟨hnarrowed, hargs⟩ := ih hparams.2 h
        exact ⟨hnarrowed, by simpa [hnumeric] using hargs⟩
      · rw [hincompatible] at h
        cases h

/-- A call that gives a value takes numbers, and none of them by narrowing. -/
theorem Signature.isNumeric_of_resolve {call : Signature} {resolved : Resolved}
    (h : call.resolve = .ok resolved) (hvoid : resolved.result ≠ .void) :
    resolved.narrowed = [] ∧ ∀ arg ∈ call.args, arg.isNumeric = true := by
  have hall : ∀ b ∈ Builtin.all, b.returns = .void ∨
      b.variadic = none ∧ ∀ param ∈ b.params, param = .int ∨ param = .num := by decide
  obtain ⟨b, hb, -, -, narrowed, hbind, rfl⟩ := exists_bind_of_resolve h
  rcases hall b hb with hreturns | ⟨hvariadic, hparams⟩
  · exact absurd (by simp only [hreturns]; rfl) hvoid
  · rw [hvariadic] at hbind
    exact Builtin.isNumeric_of_bind hparams hbind

namespace Typed

variable {receiver offset inner left right : Typed} {args : List Typed} {p : Position}

/-- A number is typed silently. -/
@[simp] theorem silent_ofNumber (number : Number) : (ofNumber number p).Silent := by
  unfold ofNumber
  dsimp only
  split <;> simp

/-- A literal is typed silently. -/
@[simp] theorem silent_ofLiteral (literal : Literal) : (ofLiteral literal p).Silent := by
  unfold ofLiteral
  split <;> simp

/-- A name is looked up silently. -/
@[simp] theorem silent_ofName (scopes : Scopes) (name : String) :
    (ofName scopes name p).Silent := by
  unfold ofName
  split <;> simp

/-- An element is looked up silently. -/
@[simp] theorem silent_elementAt : (elementAt receiver offset p).Silent := by
  unfold elementAt
  repeat' split
  all_goals simp

/-- A conversion that is asked for is silent, also where it narrows. -/
@[simp] theorem silent_convert (target : Primitive) : (convert target args p).Silent := by
  simp [convert]

/-- A sign is silent. -/
@[simp] theorem silent_applyUnary (op : UnaryOp) : (applyUnary op inner p).Silent := by
  simp [applyUnary]

/-- A step is silent. -/
@[simp] theorem silent_applyStep (op : StepOp) (after : Bool) :
    (applyStep op after inner p).Silent := by
  simp [applyStep]

/-- An operator is silent. -/
@[simp] theorem silent_applyBinary (op : BinaryOp) : (applyBinary op left right p).Silent := by
  unfold applyBinary
  split <;> simp

/-- Only arguments that are narrowed are warned of. -/
theorem silent_call {target : Option Typed} {resolved : Resolved} (h : resolved.narrowed = []) :
    (call target resolved args p).Silent := by
  simp [call, h, warnNarrowed]

/-- A call of a function that gives a value takes values and is silent. -/
theorem silent_callFunction {name : String} {typed : Typed}
    (h : (callFunction name args p).outcome = .ok typed) (hvoid : typed.type ≠ .void) :
    (callFunction name args p).Silent ∧ ∀ arg ∈ args, arg.type ≠ .void := by
  obtain ⟨resolved, hresolved, rfl⟩ := eq_of_callFunction h
  obtain ⟨hnarrowed, hargs⟩ := Signature.isNumeric_of_resolve hresolved hvoid
  refine ⟨?_, fun arg harg => Ty.ne_void_of_isNumeric (hargs _ (List.mem_map_of_mem harg))⟩
  simp only [callFunction, bindCall, Checked.silent_bind_iff, Checked.silent_mapError_iff,
    Checked.silent_lift, Checked.outcome_mapError_eq_ok_iff, Checked.outcome_lift, true_and]
  intro own hown
  cases hresolved.symm.trans hown
  exact silent_call hnarrowed

/-- A call of a method that gives a value is called on a value, takes values, and is silent. -/
theorem silent_callMethod {name : String} {typed : Typed}
    (h : (callMethod receiver name args p).outcome = .ok typed) (hvoid : typed.type ≠ .void) :
    (callMethod receiver name args p).Silent ∧ receiver.type ≠ .void ∧
      ∀ arg ∈ args, arg.type ≠ .void := by
  rcases eq_of_callMethod h with ⟨offset, rfl, rfl, hselect⟩ | ⟨hat, resolved, hresolved, -, rfl⟩
  · obtain ⟨hinteger, element, helement, -⟩ := eq_of_elementAt hselect
    refine ⟨by simp [callMethod], Ty.ne_void_of_elementType helement, ?_⟩
    simpa using Ty.ne_void_of_isInteger hinteger
  · obtain ⟨hnarrowed, hargs⟩ := Signature.isNumeric_of_resolve hresolved hvoid
    obtain ⟨b, -, -, haccepts, -⟩ := Signature.exists_builtin_of_resolve hresolved
    refine ⟨?_, Ty.ne_void_of_accepts haccepts,
      fun arg harg => Ty.ne_void_of_isNumeric (hargs _ (List.mem_map_of_mem harg))⟩
    simp only [callMethod, hat, if_false, bindCall, Checked.silent_bind_iff,
      Checked.silent_mapError_iff, Checked.silent_lift, Checked.outcome_mapError_eq_ok_iff,
      Checked.outcome_lift, true_and]
    intro own hown
    cases hresolved.symm.trans hown
    split <;> simp [silent_call hnarrowed]

/-- Only values are converted. -/
theorem ne_void_of_convert {target : Primitive} {typed : Typed}
    (h : (convert target args p).outcome = .ok typed) : ∀ arg ∈ args, arg.type ≠ .void := by
  obtain ⟨resolved, hresolved, -⟩ := eq_of_convert h
  obtain ⟨source, htypes, hsource, -⟩ := Primitive.eq_of_resolveConversion hresolved
  obtain ⟨own, rfl, hown⟩ := List.map_eq_singleton_iff.1 htypes
  intro arg harg hvoid
  rw [List.mem_singleton] at harg
  subst harg
  rw [hvoid] at hown
  exact hsource (Ty.primitive.inj hown).symm

end Typed

namespace Expr

variable {scopes : Scopes} {e : Expr} {typed : Typed}

/-- Values are typed one by one. -/
theorem silent_values {es : List Expr} {results : List Typed}
    (hes : ∀ e ∈ es, ∀ typed, (e.value scopes).outcome = .ok typed → typed.type ≠ .void →
      (e.value scopes).Silent)
    (h : (values scopes es).outcome = .ok results) (hvoid : ∀ result ∈ results, result.type ≠ .void) :
    (values scopes es).Silent := by
  induction es generalizing results with
  | nil => simp [values]
  | cons e es ih =>
    rw [List.forall_mem_cons] at hes
    simp only [values, Checked.outcome_bind_eq_ok_iff] at h
    obtain ⟨head, hhead, tail, htail, heq⟩ := h
    cases heq
    rw [List.forall_mem_cons] at hvoid
    have hfirst := hes.1 head hhead hvoid.1
    have hothers := ih hes.2 htail hvoid.2
    simp [values, hfirst, hothers]

/-- Typing an expression that has a value warns of nothing: its parts have values too, by the checks
of the step that joins them. -/
theorem silent_of_value (h : (e.value scopes).outcome = .ok typed) (hvoid : typed.type ≠ .void) :
    (e.value scopes).Silent := by
  induction e using inductionOnChildren generalizing typed with
  | step e ih =>
    cases ValueStep.of_value h with
    | number | literal | ident => simp [value]
    | @call _ args _ _ hresults hcall =>
      obtain ⟨hsilent, hargs⟩ := Typed.silent_callFunction hcall hvoid
      have hparts : (values scopes args).Silent :=
        silent_values (fun e he _ => ih e he) hresults hargs
      simp [value, hresults, hsilent, hparts]
    | index hwhole hselected hselect =>
      obtain ⟨hinteger, element, helement, -⟩ := Typed.eq_of_elementAt hselect
      have hreceiver := ih _ (by simp [children]) hwhole (Ty.ne_void_of_elementType helement)
      have hoffset := ih _ (by simp [children]) hselected (Ty.ne_void_of_isInteger hinteger)
      simp [value, hreceiver, hoffset]
    | method hwhole hresults hcall =>
      obtain ⟨hsilent, hown, hargs⟩ := Typed.silent_callMethod hcall hvoid
      have hreceiver := ih _ (by simp [children]) hwhole hown
      have hparts := silent_values (fun e he _ => ih e (by simp [children, he])) hresults hargs
      simp [value, hwhole, hresults, hsilent, hreceiver, hparts]
    | convert hresults hconvert =>
      have hparts := silent_values (fun e he _ => ih e (by simp [children, he])) hresults
        (Typed.ne_void_of_convert hconvert)
      simp [value, hparts]
    | @unary _ _ _ inner hinner happly =>
      have hoperand : inner.type ≠ .void := by
        rcases (Typed.eq_of_applyUnary happly).1 with hbool | hnumeric
        · simp [hbool]
        · exact Ty.ne_void_of_isNumeric hnumeric
      simp [value, ih _ (by simp [children]) hinner hoperand]
    | stepBefore hinner happly | stepAfter hinner happly =>
      obtain ⟨-, -, hnumeric, -⟩ := Typed.eq_of_applyStep happly
      simp [value, ih _ (by simp [children]) hinner (Ty.ne_void_of_isNumeric hnumeric)]
    | binary hfirst hsecond happly =>
      obtain ⟨type, htype, -⟩ := Typed.eq_of_applyBinary happly
      obtain ⟨hleft, hright⟩ := Ty.ne_void_of_resultType htype
      simp [value, ih _ (by simp [children]) hfirst hleft,
        ih _ (by simp [children]) hsecond hright]

end Expr

/-- The run of tokens in a statement that has to be a value: the condition of an `if`, of a `while`
or of an `else if`, the bound or the step of a loop header, or what is returned. -/
def Statement.valueRun? (s : Statement) : Option (List Token) :=
  match s.kind with
  | .header =>
    if s.lead.kind = .keyword .ifWord || s.lead.kind = .keyword .whileWord then some s.rest else none
  | .alternative => if s.rest = [] then none else some s.rest.tail
  | .bound | .step => some s.tokens
  | .result => if s.rest = [] then none else some s.rest
  | _ => none

namespace Emission

/-- A run of tokens is an expression that has a value and warns of nothing. -/
def ReadsSilently (scopes : Scopes) (run : List Token) : Prop :=
  ∃ expr typed, Expr.parse run = .ok expr ∧ (expr.value scopes).outcome = .ok typed ∧
    typed.type ≠ .void ∧ (expr.value scopes).warnings = []

variable {scopes : Scopes} {deny : Bool} {e e' : Emission} {s : Statement} {run : List Token}

/-- A condition is a truth value. -/
theorem silent_condition {keyword : Token} {text : String}
    (h : (condition scopes keyword run).outcome = .ok text) :
    ReadsSilently scopes run ∧ (condition scopes keyword run).Silent := by
  simp only [condition, Checked.outcome_bind_eq_ok_iff, outcome_monadLift_malformed,
    outcome_monadLift_check] at h
  obtain ⟨run', hrun, expr, hparse, typed, htyped, hbool⟩ := h
  have htype : typed.type = .bool := by
    split at hbool
    · assumption
    · simp at hbool
  have hvoid : typed.type ≠ .void := by simp [htype]
  have hsilent := Expr.silent_of_value htyped hvoid
  have heq := require_eq_ok hrun
  subst heq
  exact ⟨⟨expr, typed, hparse, htyped, hvoid, hsilent⟩, by simp [condition, hrun, hparse, hsilent]⟩

/-- The header of a block with a condition does not warn. -/
theorem readsSilently_of_condition {keyword : Token} {header : String → Header} {waiting : Header}
    (h : Checked.outcome (do
      let text ← condition scopes keyword run
      pure (header text)) = .ok waiting) :
    ReadsSilently scopes run ∧ Checked.Silent (do
      let text ← condition scopes keyword run
      pure (header text) : Emitting Header) := by
  obtain ⟨text, htext, -⟩ := Checked.outcome_bind_eq_ok_iff.1 h
  obtain ⟨hreads, hsilent⟩ := silent_condition htext
  exact ⟨hreads, Checked.silent_bind_iff.2 ⟨hsilent, fun _ _ => Checked.silent_pure _⟩⟩

/-- Nothing is recorded for what does not warn. -/
theorem diagnostics_silent {ε α : Type} {checked : Checked ε α} (h : checked.Silent) :
    e.diagnostics ++ checked.warnings = e.diagnostics := by
  rw [h, List.append_nil]

/-- The condition of an `if` or a `while` warns about nothing. -/
theorem readsSilently_of_header
    (hlead : s.lead.kind = .keyword .ifWord ∨ s.lead.kind = .keyword .whileWord)
    (h : e.header deny s = .ok e') :
    ReadsSilently e.scopes s.rest ∧ e'.diagnostics = e.diagnostics := by
  obtain ⟨waiting, hwaiting, rfl⟩ := eq_of_header h
  have hcondition : ReadsSilently e.scopes s.rest ∧ (headerOf e.scopes s).Silent := by
    rcases hlead with hlead | hlead <;> simp only [headerOf, hlead] at hwaiting ⊢ <;>
      exact readsSilently_of_condition hwaiting
  exact ⟨hcondition.1, diagnostics_silent hcondition.2⟩

/-- The condition of an `else if` warns about nothing. -/
theorem readsSilently_of_alternative {closed : Option Scope.Kind} (hrest : s.rest ≠ [])
    (h : e.alternative deny closed s = .ok e') :
    ReadsSilently e.scopes s.rest.tail ∧ e'.diagnostics = e.diagnostics := by
  obtain ⟨-, waiting, hwaiting, rfl⟩ := eq_of_alternative h
  obtain ⟨hnil, -⟩ | ⟨next, run, text, hnext, hif, -, -⟩ := alternativeOf_cases hwaiting
  · exact absurd hnil hrest
  · have hcondition : ReadsSilently e.scopes run ∧ (alternativeOf e.scopes s).Silent := by
      simp only [alternativeOf, hnext, hif, if_true] at hwaiting ⊢
      exact readsSilently_of_condition hwaiting
    refine ⟨?_, diagnostics_silent hcondition.2⟩
    rw [hnext]
    exact hcondition.1

/-- The clauses of a loop header are numbers. -/
theorem readsSilently_of_clause {part : Clause} (h : e.clause deny part s = .ok e') :
    ReadsSilently e.scopes s.tokens ∧ e'.diagnostics = e.diagnostics := by
  obtain ⟨expr, typed, header, hparse, hvalue, -, -, rfl⟩ := eq_of_clause h
  obtain ⟨htyped, hnumeric⟩ := value_of_clauseValue hvalue
  have hvoid := Ty.ne_void_of_isNumeric hnumeric
  have hsilent := Expr.silent_of_value htyped hvoid
  have hwhole : (clauseValue e.scopes part expr).Silent := by simp [clauseValue, hsilent]
  exact ⟨⟨expr, typed, hparse, htyped, hvoid, hsilent⟩, diagnostics_silent hwhole⟩

/-- The warnings about what is returned are not recorded, but there are none. -/
theorem readsSilently_of_result (hrest : s.rest ≠ []) (h : e.result s = .ok e') :
    ReadsSilently e.scopes s.rest ∧ e'.diagnostics = e.diagnostics := by
  obtain ⟨-, text, htext, rfl⟩ := eq_of_result h
  obtain ⟨hnil, -⟩ | ⟨-, expr, typed, hparse, htyped, hinteger, -⟩ := resultText_eq_ok htext
  · exact absurd hnil hrest
  · have hvoid := Ty.ne_void_of_isInteger hinteger
    exact ⟨⟨expr, typed, hparse, htyped, hvoid, Expr.silent_of_value htyped hvoid⟩, rfl⟩

/-- Values never warn, and in particular the conditions, the clauses of loop headers and the results
of accepted statements do not: nothing is recorded for them, and nothing is lost where warnings are
not recorded. -/
theorem values_are_silent :
    (∀ (scopes : Scopes) (expr : Expr) (typed : Typed), (expr.value scopes).outcome = .ok typed →
      typed.type ≠ .void → (expr.value scopes).warnings = []) ∧
    ∀ (deny : Bool) (e e' : Emission) (s : Statement) (run : List Token),
      e.step deny s = .ok e' → s.valueRun? = some run →
        ReadsSilently e.scopes run ∧ e'.diagnostics = e.diagnostics := by
  refine ⟨fun _ _ _ h hvoid => Expr.silent_of_value h hvoid, fun deny e e' s run h hrun => ?_⟩
  have hdispatch := dispatch_of_step h
  unfold dispatch at hdispatch
  unfold Statement.valueRun? at hrun
  cases hkind : s.kind <;> simp only [hkind] at hdispatch hrun
  case header =>
    obtain ⟨hlead, heq⟩ := Option.ite_none_right_eq_some.1 hrun
    cases heq
    have hheader := readsSilently_of_header (by simpa using hlead) hdispatch
    exact hheader
  case alternative =>
    obtain ⟨hrest, heq⟩ := Option.ite_none_left_eq_some.1 hrun
    cases heq
    have halternative := readsSilently_of_alternative hrest hdispatch
    exact halternative
  case bound | step =>
    cases hrun
    have hclause := readsSilently_of_clause hdispatch
    exact hclause
  case result =>
    obtain ⟨hrest, heq⟩ := Option.ite_none_left_eq_some.1 hrun
    cases heq
    have hresult := readsSilently_of_result hrest hdispatch
    exact hresult
  all_goals cases hrun

/-- A program that returns an element of a vector, which it takes out by a call. -/
private def poppedResult : Source :=
  ⟨"popped", "main\x7bvar v:i32[]=[1,2];return v.pop()+1\x7d"⟩

/-- The value of the `return` is a call, and so an expression that could warn if it had no value. -/
theorem poppedResult_reads_silently :
    ∃ (e e' : Emission) (s : Statement), e.step false s = .ok e' ∧ s.kind = .result ∧
      s.valueRun? = some s.rest ∧ (ReadsSilently e.scopes s.rest ∧ e'.diagnostics = e.diagnostics) ∧
      ∃ expr typed, Expr.parse s.rest = .ok expr ∧ (expr.value e.scopes).outcome = .ok typed ∧
        typed.type ≠ .void ∧ (expr.value e.scopes).warnings = [] := by
  have hseen : poppedResult.observed 3
      (fun _ s _ => decide (s.kind = .result ∧ s.valueRun? = some s.rest)) = some true := by
    decide +kernel
  obtain ⟨-, -, s, -, e, e', -, -, -, hstep, hseen⟩ := Source.exists_of_observed hseen
  obtain ⟨hkind, hrun⟩ := of_decide_eq_true hseen
  have hsilent := values_are_silent.2 false e e' s s.rest hstep hrun
  obtain ⟨expr, typed, hparse, htyped, hvoid, -⟩ := hsilent.1
  exact ⟨e, e', s, hstep, hkind, hrun, hsilent, expr, typed, hparse, htyped, hvoid,
    values_are_silent.1 e.scopes expr typed htyped hvoid⟩

end Emission

end Sprout
