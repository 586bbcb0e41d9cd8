import Sprout.Compile
import Sprout.Proofs.Emission.Plans
import Sprout.Proofs.Emission.Steps
import Sprout.Proofs.Typing.Parts

namespace Sprout

/-- `Holds s e`: the expression `e` stands in the statement `s`, outside all other expressions. -/
inductive Statement.Holds : Statement → Expr → Prop
  | initializer {s d e} (hkind : s.kind = .declaration ∨ s.kind = .initialization)
      (hread : Declaration.read s = .ok d) (he : e ∈ d.initializers) : Holds s e
  | size {s d type e} (hkind : s.kind = .declaration ∨ s.kind = .initialization)
      (hread : Declaration.read s = .ok d) (htype : d.type = some type) (he : e ∈ type.children) :
      Holds s e
  | operation {s es e} (hkind : s.kind = .operation) (hparse : Expr.parseList s.tokens = .ok es)
      (he : e ∈ es) : Holds s e
  | target {s a e} (hkind : s.kind = .assignment) (hread : Assignment.read s = .ok a)
      (he : e ∈ a.targets) : Holds s e
  | value {s a e} (hkind : s.kind = .assignment) (hread : Assignment.read s = .ok a)
      (he : e ∈ a.values) : Holds s e
  | condition {s e} (hkind : s.kind = .header)
      (hlead : s.lead.kind = .keyword .ifWord ∨ s.lead.kind = .keyword .whileWord)
      (hparse : Expr.parse s.rest = .ok e) : Holds s e
  | alternative {s next run e} (hkind : s.kind = .alternative) (hrest : s.rest = next :: run)
      (hparse : Expr.parse run = .ok e) : Holds s e
  | start {s target equal initial e} (hkind : s.kind = .header)
      (hlead : s.lead.kind = .keyword .forWord)
      (hsplit : Token.splitTop (· = .equal) 0 s.rest = some (target, equal, initial))
      (hparse : Expr.parse initial = .ok e) : Holds s e
  | loopVariable {s target equal initial e} (hkind : s.kind = .header)
      (hlead : s.lead.kind = .keyword .forWord)
      (hsplit : Token.splitTop (· = .equal) 0 s.rest = some (target, equal, initial))
      (hvar : ∀ t ∈ target.head?, t.kind ≠ .keyword .var) (hparse : Expr.parse target = .ok e) :
      Holds s e
  | loopSize {s first name colon run equal initial type e} (hkind : s.kind = .header)
      (hlead : s.lead.kind = .keyword .forWord)
      (hsplit : Token.splitTop (· = .equal) 0 s.rest =
        some (first :: name :: colon :: run, equal, initial))
      (hvar : first.kind = .keyword .var) (hparse : Expr.parseType run = .ok type)
      (he : e ∈ type.children) : Holds s e
  | clause {s e} (hkind : s.kind = .bound ∨ s.kind = .step)
      (hparse : Expr.parse s.tokens = .ok e) : Holds s e
  | result {s e} (hkind : s.kind = .result) (hparse : Expr.parse s.rest = .ok e) : Holds s e

section Typing

variable {scopes : Scopes} {e : Expr}

/-- The sizes of a type that is resolved are accepted. -/
theorem Expr.accepted_of_dimensioned {base type : Ty} {sizes : List (Option Expr)}
    (h : (dimensioned scopes base sizes).outcome = .ok type) :
    ∀ size ∈ sizes.reduceOption, Accepted scopes size := by
  induction sizes generalizing type with
  | nil => intro size hsize; cases hsize
  | cons level sizes ih =>
    simp only [dimensioned, Checked.outcome_bind_eq_ok_iff] at h
    obtain ⟨element, helement, hlevel⟩ := h
    cases level with
    | none => exact ih helement
    | some outer =>
      simp only [dimension, Checked.outcome_bind_eq_ok_iff] at hlevel
      obtain ⟨_, ⟨typed, htyped, -⟩, -⟩ := hlevel
      intro size hsize
      rw [List.reduceOption_cons_of_some] at hsize
      cases hsize with
      | head => exact .of_value htyped
      | tail _ hsize => exact ih helement size hsize

/-- The sizes in a type that is resolved are accepted. -/
theorem Expr.accepted_of_resolveType {type : Ty} (h : (e.resolveType scopes).outcome = .ok type) :
    ∀ size ∈ e.children, Accepted scopes size := by
  unfold resolveType at h
  split at h
  · simp at h
  · exact accepted_of_dimensioned h
  · simp at h

/-- A single expression that is unpacked is typed. -/
theorem accepted_of_unpackable {count : Nat} {es : List Expr} {unpacked : Typed × List Ty}
    (h : (unpackable? scopes count es).outcome = .ok (some unpacked)) :
    ∀ e ∈ es, e.Accepted scopes := by
  obtain ⟨e, rfl, hvalue, -⟩ := eq_of_unpackable h
  simpa using Expr.Accepted.of_value hvalue

end Typing

section Declarations

variable {scopes : Scopes} {d : Declaration} {type : Option Ty} {plan : Declaration.Plan}

/-- Initial values that are typed are as many as the expressions, all of which are accepted. -/
theorem Declaration.accepted_of_initialValues {es : List Expr} {values : List (Expr × Typed)}
    (h : (initialValues scopes type es).outcome = .ok values) :
    values.length = es.length ∧ ∀ e ∈ es, e.Accepted scopes := by
  obtain ⟨rfl, hvalues⟩ := eq_of_initialValues h
  refine ⟨by simp, fun e he => ?_⟩
  obtain ⟨value, hvalue, rfl⟩ := List.mem_map.1 he
  exact ⟨type, value.2, hvalues value hvalue⟩

/-- The initializers and the sizes of a declaration that can be planned are accepted. -/
theorem Declaration.accepted_of_plan (h : (d.plan scopes).outcome = .ok plan) :
    (∀ e ∈ d.initializers, e.Accepted scopes) ∧
      ∀ type, d.type = some type → ∀ size ∈ type.children, size.Accepted scopes := by
  obtain ⟨type, htype, hcases⟩ := plan_cases h
  refine ⟨?_, fun t ht => ?_⟩
  · rcases hcases with ⟨hnil, -⟩ | ⟨call, members, position, hunpacked, -⟩ | ⟨first, -, hplan⟩
    · simp [hnil]
    · exact accepted_of_unpackable hunpacked
    · obtain ⟨-, values, hvalues, -⟩ := planInitialized_eq_ok hplan
      exact (accepted_of_initialValues hvalues).2
  · rw [ht] at htype
    obtain ⟨resolved, hresolved, -⟩ := htype
    exact Expr.accepted_of_resolveType hresolved

end Declarations

section Assignments

variable {scopes : Scopes} {a : Assignment} {places : List Typed} {lines : List Line}

/-- Targets that are typed as places are as many as the places, and all of them can be written. -/
theorem Assignment.writable_of_places {targets : List Expr}
    (h : (Assignment.places scopes targets).outcome = .ok places) :
    places.length = targets.length ∧ ∀ e ∈ targets, e.Writable scopes := by
  have hplaces := forall₂_of_places h
  refine ⟨hplaces.length_eq.symm, fun e he => ?_⟩
  obtain ⟨place, -, hplace, hmodifiable⟩ := exists_right_of_mem hplaces e he
  exact ⟨place, e.position, hplace, hmodifiable⟩

/-- What is assigned is accepted. -/
theorem Assignment.accepted_of_plainLines {pairs : List (Typed × Expr)}
    (h : (plainLines scopes pairs).outcome = .ok lines) :
    ∀ pair ∈ pairs, pair.2.Accepted scopes := by
  intro pair hpair
  obtain ⟨_, -, value, _, hvalue, -⟩ := exists_right_of_mem (forall₂_of_plainLines h) pair hpair
  exact ⟨_, value, hvalue⟩

/-- What a compound assignment computes with is accepted. -/
theorem Assignment.accepted_of_compoundLines {op : Arithmetic} {symbol : String}
    {pairs : List (Typed × Expr)}
    (h : (compoundLines scopes op symbol pairs).outcome = .ok lines) :
    ∀ pair ∈ pairs, pair.2.Accepted scopes := by
  intro pair hpair
  obtain ⟨_, -, value, hvalue, -⟩ := exists_right_of_mem (forall₂_of_compoundLines h) pair hpair
  exact .of_value hvalue

/-- A number of values that is allowed leaves none of them without a place: a single value goes to
every place, and several go one to each. -/
theorem Assignment.mem_pairs (hplaces : places ≠ [])
    (hcount : (checkCount places.length a.values).outcome = .ok ()) :
    ∀ e ∈ a.values, ∃ place, (place, e) ∈ a.pairs places := by
  intro e he
  unfold pairs
  cases hvalues : a.values with
  | nil => rw [hvalues] at he; cases he
  | cons first others =>
    cases others with
    | nil =>
      obtain ⟨place, others, rfl⟩ := List.exists_cons_of_ne_nil hplaces
      rw [hvalues, List.mem_singleton] at he
      subst he
      exact ⟨place, by simp [spread, List.replicate_succ]⟩
    | cons second others =>
      have hlength : a.values.length = places.length := by
        rw [hvalues] at hcount ⊢
        by_contra hnot
        rw [checkCount, if_neg hnot] at hcount
        simp at hcount
      have hspread : spread places.length (first :: second :: others) = a.values := by
        rw [hvalues]; rfl
      rw [hspread]
      obtain ⟨i, hi, rfl⟩ := List.getElem_of_mem he
      refine ⟨places[i], List.mem_iff_getElem.2 ⟨i, by simp; omega, by simp⟩⟩

/-- A name is accepted wherever it stands, or nowhere. -/
theorem Expr.Accepted.ident {e e' : Expr} {name : String} (he : e.name? = some name)
    (he' : e'.name? = some name) (h : e.Accepted scopes) : e'.Accepted scopes := by
  cases e with
  | ident own p =>
    cases e' with
    | ident own' p' =>
      cases he
      cases he'
      obtain ⟨symbol, hsymbol⟩ := h.lookup ⟨p, .self⟩
      exact .of_value (by simp only [Expr.value, Typed.ofName, hsymbol]; rfl)
    | _ => cases he'
  | _ => cases he

/-- The values of a swap are its targets. -/
theorem Assignment.accepted_of_swap {targets values : List Expr} {line : Line}
    (htargets : ∀ e ∈ targets, e.Accepted scopes)
    (h : (swap? targets values places).outcome = .ok (some line)) :
    ∀ e ∈ values, e.Accepted scopes := by
  obtain ⟨-, _, _, _, _, x, y, rfl, rfl, hleft, hright, hv, hv'⟩ := eq_of_swap h
  simp only [List.forall_mem_cons] at htargets ⊢
  exact ⟨.ident hright hv htargets.2.1, .ident hleft hv' htargets.1, by simp⟩

/-- The values of an assignment are accepted, whichever way it is emitted. In a swap they are the
targets. -/
theorem Assignment.accepted_of_assignLines (hplaces : places ≠ [])
    (htargets : ∀ e ∈ a.targets, e.Accepted scopes)
    (h : (a.assignLines scopes places).outcome = .ok lines) :
    ∀ e ∈ a.values, e.Accepted scopes := by
  rcases assignLines_cases h with ⟨line, hswap, -⟩ | ⟨call, members, position, hunpacked, -⟩ |
    ⟨-, hcount, hlines⟩
  · exact accepted_of_swap htargets hswap
  · exact accepted_of_unpackable hunpacked
  · intro e he
    obtain ⟨place, hpair⟩ := mem_pairs hplaces hcount e he
    exact accepted_of_plainLines hlines (place, e) hpair

/-- The targets of an assignment that can be emitted may be written, and its values are
accepted. -/
theorem Assignment.accepted_of_lines (hnonempty : a.targets ≠ [])
    (h : (a.lines scopes).outcome = .ok lines) :
    (∀ e ∈ a.targets, e.Writable scopes) ∧ ∀ e ∈ a.values, e.Accepted scopes := by
  obtain ⟨places, hplaces, hcases⟩ := lines_cases h
  obtain ⟨hlength, htargets⟩ := writable_of_places hplaces
  have hne : places ≠ [] := by
    intro hnil
    rw [hnil] at hlength
    exact hnonempty (List.length_eq_zero_iff.1 hlength.symm)
  refine ⟨htargets, ?_⟩
  rcases hcases with ⟨op, -, hcount, hlines⟩ | ⟨-, hlines⟩
  · intro e he
    obtain ⟨place, hpair⟩ := mem_pairs hne hcount e he
    exact accepted_of_compoundLines hlines (place, e) hpair
  · exact accepted_of_assignLines hne (fun e he => (htargets e he).accepted) hlines

/-- What is evaluated for its effect is accepted. -/
theorem accepted_of_operationLines {es : List Expr}
    (h : (operationLines scopes es).outcome = .ok lines) : ∀ e ∈ es, e.Accepted scopes := by
  intro e he
  obtain ⟨_, -, typed, htyped, -⟩ := exists_right_of_mem (forall₂_of_operationLines h) e he
  exact .of_value htyped

end Assignments

/-- A run between commas is never read as no expressions. -/
theorem Expr.ne_nil_of_parseList {run : List Token} {es : List Expr} (h : parseList run = .ok es) :
    es ≠ [] := by
  simp only [parseList, list, bind_eq_ok_iff] at h
  obtain ⟨taken, ⟨head, -, tail, -, htaken⟩, hes⟩ := h
  cases htaken
  unfold complete at hes
  split at hes
  · cases hes
    simp [Taken.followedBy, Taken.map, Taken.widen]
  · cases hes

/-- An assignment has a target. -/
theorem Assignment.targets_ne_nil {s : Statement} {a : Assignment} (h : read s = .ok a) :
    a.targets ≠ [] := by
  unfold read at h
  split at h
  · cases h
  · simp only [bind_eq_ok_iff, liftM_malformed_eq_ok_iff] at h
    obtain ⟨_, -, targets, htargets, _, -, values, -, heq⟩ := h
    cases heq
    exact Expr.ne_nil_of_parseList htargets

namespace Emission

section Headers

variable {scopes : Scopes} {header : LoopHeader}

/-- A condition that is emitted is accepted. -/
theorem accepted_of_condition {keyword : Token} {run : List Token} {text : String} {e : Expr}
    (h : (condition scopes keyword run).outcome = .ok text) (hparse : Expr.parse run = .ok e) :
    e.Accepted scopes := by
  simp only [condition, Checked.outcome_bind_eq_ok_iff, outcome_monadLift_malformed,
    outcome_monadLift_check] at h
  obtain ⟨run', hrun, e', he', typed, htyped, -⟩ := h
  rw [require_eq_ok hrun, hparse] at he'
  cases he'
  exact .of_value htyped

/-- What a loop header that is accepted consists of, in either form. Both have an initial value
behind the equal sign; in front of it stands a declaration, or a place that is reused. -/
theorem loopHeader_cases {keyword : Token} {run : List Token}
    (h : (loopHeader scopes keyword run).outcome = .ok header) :
    ∃ target equal initial e start,
      Token.splitTop (· = .equal) 0 run = some (target, equal, initial) ∧
      Expr.parse initial = .ok e ∧ (e.value scopes).outcome = .ok start ∧
      ((∃ first declaration, target = first :: declaration ∧ first.kind = .keyword .var ∧
          checkStart scopes declaration e = .ok () ∧
          (declaringHeader scopes first declaration e start).outcome = .ok header) ∨
        ((∀ t ∈ target.head?, t.kind ≠ .keyword .var) ∧
          (reusingHeader scopes target e start).outcome = .ok header)) := by
  simp only [loopHeader, Checked.outcome_bind_eq_ok_iff, outcome_monadLift_malformed] at h
  obtain ⟨run', hrun, h⟩ := h
  rw [require_eq_ok hrun] at h
  split at h
  · simp at h
  · rename_i target equal initial hsplit
    simp only [Checked.outcome_bind_eq_ok_iff, outcome_monadLift_malformed] at h
    obtain ⟨initial', hinitial, e, he, h⟩ := h
    rw [require_eq_ok hinitial] at he
    refine ⟨target, equal, initial, e, ?_⟩
    split at h
    · rename_i first declaration
      split at h
      · rename_i hvar
        simp only [Checked.outcome_bind_eq_ok_iff, outcome_monadLift_violation,
          outcome_monadLift_check] at h
        obtain ⟨_, hcheck, start, hstart, h⟩ := h
        exact ⟨start, hsplit, he, hstart, .inl ⟨first, declaration, rfl, hvar, hcheck, h⟩⟩
      · rename_i hvar
        simp only [Checked.outcome_bind_eq_ok_iff, outcome_monadLift_check] at h
        obtain ⟨start, hstart, h⟩ := h
        exact ⟨start, hsplit, he, hstart, .inr ⟨by simpa using hvar, h⟩⟩
    · simp only [Checked.outcome_bind_eq_ok_iff, outcome_monadLift_check] at h
      obtain ⟨start, hstart, h⟩ := h
      exact ⟨start, hsplit, he, hstart, .inr ⟨by simp, h⟩⟩

/-- The name that a loop declares is an identifier at the front of the declaration. -/
theorem declaredName?_eq_some {declaration : List Token} {name : Token}
    (h : declaredName? declaration = some name) :
    name.kind = .identifier ∧ ∃ others, declaration = name :: others := by
  unfold declaredName? at h
  split at h
  · split at h
    · rename_i hidentifier
      cases h
      exact ⟨hidentifier, _, rfl⟩
    · cases h
  · cases h

/-- A loop that declares its variable, a number, converts the initial value to its type, and
remembers the name if it hides one. -/
theorem eq_of_declaringHeader {keyword : Token} {declaration : List Token} {e : Expr}
    {start : Typed} (h : (declaringHeader scopes keyword declaration e start).outcome = .ok header) :
    ∃ name type text, declaredName? declaration = some name ∧
      (loopType scopes start (declaration.drop 1)).outcome = .ok type ∧ type.isNumeric = true ∧
      (start.converted type e.position).outcome = .ok text ∧ header =
        { type := type.target
          name := Target.name name.lexeme
          start := text
          declares := some ⟨name.lexeme, type, name.position⟩
          shadowed := (scopes.lookup name.lexeme).map fun _ => name.lexeme } := by
  unfold declaringHeader at h
  split at h
  · simp at h
  · rename_i name hname
    simp only [Checked.outcome_bind_eq_ok_iff] at h
    obtain ⟨type, htype, h⟩ := h
    split at h
    · rename_i hnumeric
      simp only [Checked.outcome_bind_eq_ok_iff, outcome_monadLift_check] at h
      obtain ⟨text, htext, heq⟩ := h
      cases heq
      exact ⟨name, type, text, hname, htype, hnumeric, htext, rfl⟩
    · simp at h

/-- A loop that uses a variable declared before, a number, may write it, and converts the initial
value to its type. -/
theorem eq_of_reusingHeader {target : List Token} {e : Expr} {start : Typed}
    (h : (reusingHeader scopes target e start).outcome = .ok header) :
    ∃ named typed text, Expr.parse target = .ok named ∧ (named.value scopes).outcome = .ok typed ∧
      typed.checkModifiable named.position = .ok () ∧ typed.type.isNumeric = true ∧
      (start.converted typed.type e.position).outcome = .ok text ∧
        header = { type := "", name := typed.text, start := text } := by
  simp only [reusingHeader, Checked.outcome_bind_eq_ok_iff, outcome_monadLift_malformed] at h
  obtain ⟨named, hnamed, h⟩ := h
  split at h
  · simp at h
  · simp only [Checked.outcome_bind_eq_ok_iff, outcome_monadLift_check,
      outcome_monadLift_violation] at h
    obtain ⟨typed, htyped, _, hmodifiable, h⟩ := h
    split at h
    · rename_i hnumeric
      simp only [Checked.outcome_bind_eq_ok_iff, outcome_monadLift_check] at h
      obtain ⟨text, htext, heq⟩ := h
      cases heq
      exact ⟨named, typed, text, hnamed, htyped, hmodifiable, hnumeric, htext, rfl⟩
    · simp at h

/-- The sizes in the type of a loop variable are accepted. -/
theorem accepted_of_loopType {start : Typed} {colon : Token} {run : List Token} {type : Ty}
    {e : Expr} (h : (loopType scopes start (colon :: run)).outcome = .ok type)
    (hparse : Expr.parseType run = .ok e) : ∀ size ∈ e.children, size.Accepted scopes := by
  rw [loopType] at h
  split at h
  · simp only [Checked.outcome_bind_eq_ok_iff, outcome_monadLift_check,
      outcome_monadLift_malformed] at h
    obtain ⟨run', hrun, e', he', h⟩ := h
    rw [require_eq_ok hrun, hparse] at he'
    cases he'
    exact Expr.accepted_of_resolveType h
  · simp at h

end Headers

variable {deny : Bool} {e e' : Emission} {s : Statement} {expr : Expr}

/-- An assignment that is emitted was read, its targets may be written, and its values are
accepted. -/
theorem assignment_eq_ok (h : e.assignment deny s = .ok e') :
    ∃ a, Assignment.read s = .ok a ∧ (∀ target ∈ a.targets, target.Writable e.scopes) ∧
      ∀ value ∈ a.values, value.Accepted e.scopes := by
  obtain ⟨a, lines, hread, hlines, -⟩ := eq_of_assignment h
  exact ⟨a, hread, Assignment.accepted_of_lines (Assignment.targets_ne_nil hread) hlines⟩

/-- The first clause of a loop that is emitted makes a header that waits for its brace. -/
theorem loop_of_step (h : e.step deny s = .ok e') (hkind : s.kind = .header)
    (hlead : s.lead.kind = .keyword .forWord) :
    ∃ header, (loopHeader e.scopes s.lead s.rest).outcome = .ok header ∧
      e'.pending = some (.loop header) ∧ e'.scopes = e.scopes := by
  have hdispatch := dispatch_of_step h
  simp only [dispatch, hkind] at hdispatch
  obtain ⟨waiting, hwaiting, rfl⟩ := eq_of_header hdispatch
  rcases headerOf_cases hwaiting with ⟨hif, -⟩ | ⟨hwhile, -⟩ | ⟨-, -, header, hheader, rfl⟩
  · simp [hlead] at hif
  · simp [hlead] at hwhile
  · exact ⟨header, hheader, rfl, rfl⟩

/-- Every expression of a statement that is emitted is accepted in the scopes that were open before
it: initializers and sizes, targets and values, conditions, the clauses of a loop header, and
results. -/
theorem accepted_of_step (h : e.step deny s = .ok e') (hholds : s.Holds expr) :
    expr.Accepted e.scopes := by
  have hdispatch := dispatch_of_step h
  unfold dispatch at hdispatch
  cases hholds with
  | initializer hkind hread he =>
    obtain ⟨d, plan, _, hread', -, hplan, -⟩ := eq_of_declaration (declaration_of_step h hkind)
    rw [hread] at hread'
    cases hread'
    exact (Declaration.accepted_of_plan hplan).1 expr he
  | size hkind hread htype he =>
    obtain ⟨d, plan, _, hread', -, hplan, -⟩ := eq_of_declaration (declaration_of_step h hkind)
    rw [hread] at hread'
    cases hread'
    exact (Declaration.accepted_of_plan hplan).2 _ htype expr he
  | operation hkind hparse he =>
    rw [hkind] at hdispatch
    obtain ⟨es, lines, hparse', hlines, -⟩ := eq_of_operation hdispatch
    rw [hparse] at hparse'
    cases hparse'
    exact accepted_of_operationLines hlines expr he
  | target hkind hread he =>
    rw [hkind] at hdispatch
    obtain ⟨a, hread', htargets, -⟩ := assignment_eq_ok hdispatch
    rw [hread] at hread'
    cases hread'
    exact (htargets expr he).accepted
  | value hkind hread he =>
    rw [hkind] at hdispatch
    obtain ⟨a, hread', -, hvalues⟩ := assignment_eq_ok hdispatch
    rw [hread] at hread'
    cases hread'
    exact hvalues expr he
  | condition hkind hlead hparse =>
    rw [hkind] at hdispatch
    obtain ⟨waiting, hwaiting, -⟩ := eq_of_header hdispatch
    rcases headerOf_cases hwaiting with ⟨-, _, htext, -⟩ | ⟨-, _, htext, -⟩ | ⟨hif, hwhile, -⟩
    · exact accepted_of_condition htext hparse
    · exact accepted_of_condition htext hparse
    · rcases hlead with hlead | hlead
      · exact absurd hlead hif
      · exact absurd hlead hwhile
  | alternative hkind hrest hparse =>
    rw [hkind] at hdispatch
    obtain ⟨-, waiting, hwaiting, -⟩ := eq_of_alternative hdispatch
    rcases alternativeOf_cases hwaiting with ⟨hnil, -⟩ | ⟨_, _, _, hrest', -, htext, -⟩
    · rw [hrest] at hnil
      cases hnil
    · rw [hrest] at hrest'
      cases hrest'
      exact accepted_of_condition htext hparse
  | start hkind hlead hsplit hparse =>
    obtain ⟨header, hheader, -⟩ := loop_of_step h hkind hlead
    obtain ⟨_, _, _, e₁, typed, hsplit', hparse', htyped, -⟩ := loopHeader_cases hheader
    rw [hsplit] at hsplit'
    cases hsplit'
    rw [hparse] at hparse'
    cases hparse'
    exact .of_value htyped
  | loopVariable hkind hlead hsplit hvar hparse =>
    obtain ⟨header, hheader, -⟩ := loop_of_step h hkind hlead
    obtain ⟨_, _, _, e₁, typed, hsplit', -, -, hcases⟩ := loopHeader_cases hheader
    rw [hsplit] at hsplit'
    cases hsplit'
    rcases hcases with ⟨first, _, rfl, hfirst, -⟩ | ⟨-, hreusing⟩
    · exact absurd hfirst (hvar first rfl)
    · obtain ⟨named, typed, text, hparse', htyped, -⟩ := eq_of_reusingHeader hreusing
      rw [hparse] at hparse'
      cases hparse'
      exact .of_value htyped
  | loopSize hkind hlead hsplit hvar hparse he =>
    obtain ⟨header, hheader, -⟩ := loop_of_step h hkind hlead
    obtain ⟨_, _, _, e₁, typed, hsplit', -, -, hcases⟩ := loopHeader_cases hheader
    rw [hsplit] at hsplit'
    cases hsplit'
    rcases hcases with ⟨first, _, heq, -, -, hdeclaring⟩ | ⟨hnot, -⟩
    · cases heq
      obtain ⟨name, type, text, -, htype, -⟩ := eq_of_declaringHeader hdeclaring
      exact accepted_of_loopType htype hparse expr he
    · exact absurd hvar (hnot _ rfl)
  | clause hkind hparse =>
    obtain ⟨part, hclause⟩ := clause_of_step h hkind
    obtain ⟨expr', typed, header, hparse', htyped, -⟩ := eq_of_clause hclause
    rw [hparse] at hparse'
    cases hparse'
    exact .of_value (value_of_clauseValue htyped).1
  | result hkind hparse =>
    rw [hkind] at hdispatch
    obtain ⟨-, text, htext, -⟩ := eq_of_result hdispatch
    rcases resultText_eq_ok htext with ⟨hnil, -⟩ | ⟨-, expr', typed, hparse', htyped, -⟩
    · rw [hnil] at hparse
      cases hparse
    · rw [hparse] at hparse'
      cases hparse'
      exact .of_value htyped

end Emission

end Sprout
