import Sprout.Proofs.Denial
import Sprout.Proofs.Emission.Announcements
import Sprout.Proofs.Places.Statements

namespace Sprout

variable {P : Position → Prop} {deny : Bool} {e : Emission} {s : Statement}

namespace Statement

/-- Whether nothing stands between the word `for` and the equal sign of a header, and the initial
value behind the sign is read and typed. -/
def LacksVariable (scopes : Scopes) (s : Statement) : Prop :=
  s.kind = .header ∧ s.lead.kind = .keyword .forWord ∧ Emission.StartsNothing scopes s.rest

end Statement

namespace Emission

/-- A denied warning is shown where the warning is. -/
theorem refusesIn_report {warnings : List Diagnostic} (hwarnings : ∀ d ∈ warnings, ShownIn P d) :
    RefusesIn P (e.report deny warnings) := by
  unfold report
  split
  · rename_i first others
    have hfirst : ShownIn P first := hwarnings first List.mem_cons_self
    rw [refusesIn_error_iff]
    exact hfirst
  · simp

/-- A check that points to such places is settled so too, whether its warnings are denied or not. -/
theorem refusesIn_settle {α : Type} {checked : Emitting α} (h : checked.PointsIn P) :
    RefusesIn P (e.settle deny checked) := by
  simp [settle, h.refuses, refusesIn_report h.warns]

/-- A name that is already declared is refused without a place. -/
theorem refusesIn_scopes {scopes : Scopes} {name : String} {symbol : Symbol} :
    RefusesIn P (scopes.declare name symbol) := by
  unfold Scopes.declare
  split <;> simp

/-- The warning about what a name hides is shown where the name stands. -/
theorem refusesIn_declare {name : String} {symbol : Symbol} {p : Position} (hp : P p) :
    RefusesIn P (e.declare deny name symbol p) := by
  simp only [declare, refusesIn_bind_iff, refusesIn_scopes, true_and]
  rintro ⟨declared, scopes⟩ -
  cases declared with
  | fresh => simp
  | shadowing => exact refusesIn_report (by simpa using hp)

/-- A name that is already declared, and the warning about one that hides another, are shown at that
name. -/
theorem refusesIn_bind {mutable : Bool} {bindings : List Binding}
    (hbindings : ∀ b ∈ bindings, P b.name.position) :
    RefusesIn P (e.bind deny mutable bindings) := by
  induction bindings generalizing e with
  | nil => simp [bind]
  | cons b bindings ih =>
    rw [List.forall_mem_cons] at hbindings
    simp only [bind, refusesIn_bind_iff]
    exact ⟨refusesIn_orAt hbindings.1 (refusesIn_declare hbindings.1),
      fun e _ => ih hbindings.2⟩

section Handlers

variable (hs : s.StandsIn P)

include hs

/-- Whatever is wrong with a declaration is shown at its tokens. -/
theorem refusesIn_declaration : RefusesIn P (e.declaration deny s) := by
  simp only [declaration, refusesIn_bind_iff, refusesIn_liftM_violation_iff, refusesIn_pure,
    implies_true, and_true]
  refine ⟨Declaration.refusesIn_read hs, fun d hread => ?_⟩
  have hd := Declaration.standsIn_of_read hs hread
  refine ⟨Declaration.refusesIn_checkShadowing hd _, fun _ _ => ?_⟩
  refine ⟨refusesIn_settle (by simpa using Declaration.pointsIn_plan hd _), ?_⟩
  rintro ⟨plan, e'⟩ hsettle
  have hplan := outcome_monadLift_check.1 (eq_of_settle hsettle).1
  refine refusesIn_bind fun b hb => hd.names b.name ?_
  rw [← Declaration.names_of_plan hplan]
  exact List.mem_map_of_mem hb

/-- Whatever is wrong with an assignment is shown at its tokens. -/
theorem refusesIn_assignment : RefusesIn P (e.assignment deny s) := by
  simp only [assignment, refusesIn_bind_iff, refusesIn_pure, implies_true, and_true]
  refine ⟨Assignment.refusesIn_read hs, fun a hread => refusesIn_settle ?_⟩
  simpa using Assignment.pointsIn_lines _ (Assignment.relocate_eq_of_read hs hread)

/-- Whatever is wrong with expressions evaluated for their effect is shown at their tokens. -/
theorem refusesIn_operation : RefusesIn P (e.operation deny s) := by
  simp only [operation, refusesIn_bind_iff, refusesIn_liftM_malformed_iff,
    liftM_malformed_eq_ok_iff, refusesIn_pure, implies_true, and_true]
  refine ⟨Expr.refusesIn_parseList hs (absurd · (List.cons_ne_nil _ _)), fun es hparse => ?_⟩
  refine refusesIn_settle ?_
  simpa using pointsIn_operationLines _ (Expr.standsIn_of_parseList hs hparse)

/-- Whatever is wrong with a block header is shown at its tokens, or at the start of the text if it
gives an initial value to no variable. -/
theorem refusesIn_header (hvariable : s.LacksVariable e.scopes → P .start) (hkind : s.kind = .header)
    (hlead : s.lead.kind = .keyword .ifWord ∨ s.lead.kind = .keyword .whileWord ∨
      s.lead.kind = .keyword .forWord) : RefusesIn P (e.header deny s) := by
  have hstart : s.lead.kind = .keyword .forWord → StartsNothing e.scopes s.rest → P .start :=
    fun hfor hnothing => hvariable ⟨hkind, hfor, hnothing⟩
  simp [header, refusesIn_settle (pointsIn_headerOf e.scopes hs hstart hlead)]

/-- Whatever is wrong with an `else` is shown at its tokens. -/
theorem refusesIn_alternative {closed : Option Scope.Kind} :
    RefusesIn P (e.alternative deny closed s) := by
  unfold alternative
  split
  · simp [refusesIn_settle (pointsIn_alternativeOf e.scopes hs)]
  · simpa using hs.lead

/-- Whatever is wrong with the bound or the step of a loop is shown at its tokens. -/
theorem refusesIn_clause (part : Clause) : RefusesIn P (e.clause deny part s) := by
  simp only [clause, refusesIn_bind_iff, refusesIn_liftM_malformed_iff, liftM_malformed_eq_ok_iff]
  refine ⟨Expr.refusesIn_parse hs (absurd · (List.cons_ne_nil _ _)), fun expr hparse => ?_⟩
  have hexpr := Expr.standsIn_of_parse hs hparse
  refine ⟨refusesIn_settle (by simpa using pointsIn_clauseValue _ part hexpr), ?_⟩
  rintro ⟨typed, e'⟩ -
  dsimp only
  split
  · split <;> simp [hexpr.position]
  · simpa using hexpr.position

/-- A second `main`, and what stands behind the first, is shown where it stands. -/
theorem refusesIn_start : RefusesIn P (e.start s) := by
  have hrest := hs.rest
  unfold start
  split
  · rename_i extra others hsplit
    simpa using (hrest extra (by simp [hsplit])).1
  · have hposition : P s.position := hs.lead
    repeat' split
    all_goals simp [hposition]

/-- A `break` or a `continue` outside a loop, and what stands behind one, is shown where it
stands. -/
theorem refusesIn_jump : RefusesIn P (e.jump s) := by
  have hrest := hs.rest
  unfold jump
  split
  · rename_i extra others hsplit
    simpa using (hrest extra (by simp [hsplit])).1
  · have hposition : P s.position := hs.lead
    split <;> simp [hposition]

/-- A `return` outside the main block is shown at the word, and what is wrong with its value at the
value. -/
theorem refusesIn_result : RefusesIn P (e.result s) := by
  have hposition : P s.position := hs.lead
  have htext : RefusesIn P (resultText e.scopes s.rest) := by
    unfold resultText
    split
    · simp
    · rename_i hne
      have hne : s.rest ≠ [] := hne
      simp only [refusesIn_bind_iff, refusesIn_liftM_malformed_iff, liftM_malformed_eq_ok_iff]
      refine ⟨Expr.refusesIn_parse hs.rest (absurd · hne), fun expr hparse => ?_⟩
      have hexpr := Expr.standsIn_of_parse hs.rest hparse
      simp [(Expr.pointsIn_value e.scopes hexpr).refuses, hexpr.position]
  unfold result
  split <;> simp [htext, hposition]

end Handlers

/-- A brace that closes nothing is shown where it stands. -/
theorem refusesIn_closeBlock {p : Position} (hp : P p) : RefusesIn P (e.closeBlock p) := by
  have hleave (scopes : Scopes) : RefusesIn P scopes.leave := by
    unfold Scopes.leave
    split <;> simp
  simp [closeBlock, refusesIn_orAt hp (hleave _)]

/-- A declaration is refused without a place, or for the warning about what it hides. -/
theorem declare_refuses {name : String} {symbol : Symbol} {p : Position} {v : Violation}
    (h : e.declare deny name symbol p = .error v) :
    v.position = none ∨ deny = true ∧ v = (shadowWarning name p).denial := by
  unfold declare at h
  cases hdeclared : e.scopes.declare name symbol with
  | error refusal =>
    rw [hdeclared] at h
    cases h
    unfold Scopes.declare at hdeclared
    split at hdeclared
    · cases hdeclared
      exact .inl rfl
    · cases hdeclared
  | ok declared =>
    rw [hdeclared] at h
    obtain ⟨declared, scopes⟩ := declared
    cases declared with
    | fresh => cases h
    | shadowing =>
      cases deny with
      | false => cases h
      | true =>
        cases h
        exact .inr ⟨rfl, rfl⟩

/-- The main block is refused without a place, if its argument cannot be declared. -/
theorem openMain_refuses {failure : Failure} (h : e.openMain = .error failure) :
    HasPlace.place? failure = none := by
  have hrefuses : RefusesIn (fun _ => False) e.openMain := by
    simp [openMain, Scopes.declareVariable, refusesIn_scopes]
  exact Option.eq_none_iff_forall_not_mem.2 fun p hp => hrefuses failure h p hp

/-- An opening brace is refused without a place, or for the warning about what the variable hides
that the header in front of it declares. -/
theorem openBlock_refuses {failure : Failure} (h : e.openBlock deny = .error failure) :
    HasPlace.place? failure = none ∨ deny = true ∧ ∃ name p,
      .declare name (some p) ∈ e.announced ∧
        failure = .violation (shadowWarning name p).denial := by
  unfold openBlock at h
  dsimp only at h
  split at h
  · cases h
  · exact .inl (openMain_refuses h)
  · cases h
  · cases h
  · rename_i header hpending
    unfold openLoop at h
    split at h
    · cases h
      exact .inl rfl
    · dsimp only at h
      split at h
      · cases h
      · rename_i own hown
        obtain ⟨v, hdeclare, rfl⟩ := liftM_violation_eq_error_iff.1 h
        rcases declare_refuses hdeclare with hnone | ⟨hdeny, rfl⟩
        · exact .inl hnone
        · refine .inr ⟨hdeny, own.name, own.position, ?_, rfl⟩
          simp [announced, hpending, Header.deeds, hown]

/-- A statement is blamed where it stands, or at the start of the text if it is a loop header that
lacks its variable. Only the brace behind a loop header may point elsewhere: at the variable of the
header, if it hides another one. -/
theorem step_refuses {failure : Failure} (hs : s.StandsIn P)
    (hvariable : s.LacksVariable e.scopes → P .start)
    (hlead : s.kind = .header →
      s.lead.kind = .keyword .ifWord ∨ s.lead.kind = .keyword .whileWord ∨
        s.lead.kind = .keyword .forWord)
    (h : e.step deny s = .error failure) :
    ShownIn P failure ∨ deny = true ∧ s.kind = .opening ∧ ∃ name p,
      .declare name (some p) ∈ e.announced ∧
        failure = .violation (shadowWarning name p).denial := by
  have hposition : P s.position := hs.lead
  unfold step at h
  split at h
  · cases h
    exact .inl (by simpa using hposition)
  · split at h
    · cases h
      exact .inl (by simpa using hposition)
    · unfold dispatch at h
      split at h <;> rename_i hkind
      · exact .inl (refusesIn_start hs _ h)
      · exact .inl (refusesIn_declaration hs _ h)
      · exact .inl (refusesIn_declaration hs _ h)
      · exact .inl (refusesIn_operation hs _ h)
      · exact .inl (refusesIn_assignment hs _ h)
      · have hrefuses : RefusesIn P (({ e with closed := none } : Emission).header deny s) :=
          refusesIn_header hs hvariable hkind (hlead hkind)
        exact .inl (hrefuses _ h)
      · exact .inl (refusesIn_alternative hs _ h)
      · exact .inl (refusesIn_clause hs _ _ h)
      · exact .inl (refusesIn_clause hs _ _ h)
      · exact .inl (refusesIn_jump hs _ h)
      · exact .inl (refusesIn_result hs _ h)
      · rcases openBlock_refuses h with hnone | ⟨hdeny, hdenied⟩
        · exact .inl (by simp [ShownIn, hnone])
        · exact .inr ⟨hdeny, hkind, hdenied⟩
      · exact .inl (refusesIn_closeBlock hposition _ h)

/-- A run fails at a statement, with the failure of that statement. -/
theorem run_eq_error {statements : List Statement} {failure : Failure}
    (h : run deny e statements = .error (failure, s)) :
    ∃ before after e', statements = before ++ s :: after ∧ run deny e before = .ok e' ∧
      e'.step deny s = .error failure := by
  induction statements generalizing e with
  | nil => cases h
  | cons s' statements ih =>
    rw [run] at h
    split at h
    · rename_i hstep
      cases h
      exact ⟨[], statements, e, rfl, rfl, hstep⟩
    · rename_i e₁ hstep
      obtain ⟨before, after, e', rfl, hrun, hfails⟩ := ih h
      refine ⟨s' :: before, after, e', rfl, ?_, hfails⟩
      rw [run, hstep]
      exact hrun

end Emission

end Sprout
