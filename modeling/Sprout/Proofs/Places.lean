import Sprout.Proofs.Canonical
import Sprout.Proofs.Places.Emission

namespace Sprout

/-- The end of a lexeme is not in front of the column that it would end at on a single line. -/
theorem Position.reaches_after_columns (p : Position) (text : List Char) :
    Position.Reaches ⟨p.line, p.column + text.length⟩ (p.after text) := by
  induction text generalizing p with
  | nil => exact .refl p
  | cons c text ih =>
    have hrest := ih (p.next c)
    rw [after_cons, List.length_cons]
    refine .trans ?_ hrest
    unfold next Reaches
    split
    · exact .inl (Nat.lt_succ_self p.line)
    · exact .inr ⟨rfl, by dsimp only; omega⟩

namespace Token

variable {t t' : Token}

/-- A token ends on the line where it starts, or is taken to, and no earlier. -/
theorem position_reaches_ending (t : Token) : t.position.Reaches t.ending :=
  .inr ⟨rfl, Nat.le_add_right _ _⟩

/-- A token that stands in front of another one has its end there too. -/
theorem Before.ending (h : t.Before t') (hlexeme : t.lexeme ≠ "") :
    t.ending.Reaches t'.position := by
  have hcolumns := Position.reaches_after_columns t.position t.lexeme.toList
  rw [← width_eq_length hlexeme] at hcolumns
  exact hcolumns.trans h

end Token

namespace Statement

/-- Whether a place lies between the first token of a statement and the column behind its last
one. -/
def Spans (s : Statement) (p : Position) : Prop :=
  s.position.Reaches p ∧ p.Reaches s.last.ending

variable {s : Statement}

/-- The last token of a statement is the last one of all of its tokens. -/
theorem last_eq_getLast (s : Statement) : s.last = s.tokens.getLast (List.cons_ne_nil _ _) := by
  unfold last tokens
  cases hrest : s.rest with
  | nil => rfl
  | cons t rest =>
    rw [List.getLast_cons (List.cons_ne_nil t rest), List.getLast?_eq_some_getLast, Option.getD_some]

/-- A statement spans its own tokens. They follow each other in the text, so each of them lies
between the first and the end of the last. -/
theorem standsIn_spans (hbefore : s.tokens.Pairwise Token.Before)
    (hlexemes : ∀ t ∈ s.tokens, t.lexeme ≠ "") (heof : ∀ t ∈ s.tokens, t.kind ≠ .eof) :
    s.StandsIn s.Spans := by
  have hfirst : ∀ t ∈ s.tokens, s.position.Reaches t.position := by
    intro t ht
    rcases List.mem_cons.1 ht with rfl | hrest
    · exact .refl _
    · have hlead := (List.pairwise_cons.1 hbefore).1 t hrest
      have hends := hlead.ending (hlexemes s.lead List.mem_cons_self)
      exact s.lead.position_reaches_ending.trans hends
  have hlast : ∀ t ∈ s.tokens, t.ending.Reaches s.last.ending := by
    intro t ht
    have hordered : s.tokens.Pairwise fun t t' => t = t' ∨ t.Before t' := hbefore.imp .inr
    rw [last_eq_getLast]
    rcases hordered.rel_getLast_of_rel_getLast_getLast ht (.inl rfl) with heq | hlast
    · rw [← heq]
      exact .refl _
    · exact (hlast.ending (hlexemes t ht)).trans (Token.position_reaches_ending _)
  intro t ht
  have hends := t.position_reaches_ending
  exact ⟨⟨hfirst t ht, hends.trans (hlast t ht)⟩, heof t ht,
    fun _ => ⟨(hfirst t ht).trans hends, hlast t ht⟩⟩

end Statement

namespace Source

variable {source : Source} {options : Options} {tokens : List Token} {statements : List Statement}
  {failure : Failure} {s : Statement}

/-- The tokens of a statement are some of those of its program, in the same order. -/
theorem sublist_of_statements (hstatements : source.statements tokens = .ok statements)
    (hs : s ∈ statements) : s.tokens.Sublist tokens := by
  obtain ⟨-, -, -, -, hsublist⟩ := Statement.pieces_of_group (mapError_eq_ok_iff.1 hstatements)
  have hpart := (List.singleton_sublist.2 hs).flatMap Statement.tokens
  rw [List.flatMap_singleton] at hpart
  exact hpart.trans hsublist

/-- The tokens of a statement stand in order in its program. -/
theorem standsIn_of_statements (htokens : source.significant = .ok tokens)
    (hstatements : source.statements tokens = .ok statements) (hs : s ∈ statements) :
    s.StandsIn s.Spans := by
  have hstatement := sublist_of_statements hstatements hs
  refine Statement.standsIn_spans ((before_of_significant htokens).sublist hstatement)
    (fun t ht => ?_) (ne_eof_of_statements htokens hstatements s hs)
  exact lexeme_ne_of_statements htokens hstatements t (hstatement.mem ht)

/-- When a statement is refused, so is the compilation, and its error is that of the statement. -/
theorem compile_of_run (htokens : source.significant = .ok tokens)
    (hstatements : source.statements tokens = .ok statements)
    (hrun : Emission.run options.denyWarnings {} statements = .error (failure, s)) :
    source.compile options = .error (source.failure (failure, s)) := by
  rw [compile, htokens]
  change (source.statements tokens >>= _) = _
  rw [hstatements]
  change (source.emission options.denyWarnings statements >>= _) = _
  rw [emission, hrun]
  rfl

/-- When the emission of a program fails at a statement, the compilation fails with an error whose
place the statement spans. Only where warnings are denied, a brace may be refused for the variable
of the loop header in front of it, and the error is shown at that variable. Nothing is said about
loop headers that give an initial value to no variable. -/
theorem failure_points (htokens : source.significant = .ok tokens)
    (hstatements : source.statements tokens = .ok statements)
    (hrun : Emission.run options.denyWarnings {} statements = .error (failure, s)) :
    source.compile options = .error (source.failure (failure, s)) ∧
      ∃ before after e p, statements = before ++ s :: after ∧
        Emission.run options.denyWarnings {} before = .ok e ∧
        (source.failure (failure, s)).position? = some p ∧
        (s.Spans p ∨ s.LacksVariable e.scopes ∨
          options.denyWarnings = true ∧ s.kind = .opening ∧ ∃ own,
            Statement.AwaitBrace before own ∧ p = own.position ∧
            failure = .violation (Emission.shadowWarning own.lexeme own.position).denial) := by
  have hgroup : Statement.group tokens = .ok statements := mapError_eq_ok_iff.1 hstatements
  refine ⟨compile_of_run htokens hstatements hrun, ?_⟩
  obtain ⟨before, after, e, rfl, hbefore, hstep⟩ := Emission.run_eq_error hrun
  have hs : s ∈ before ++ s :: after := by simp
  have hstands := standsIn_of_statements htokens hstatements hs
  have hposition : s.Spans s.position := hstands.lead
  have hleads : ∀ t ∈ before ++ s :: after, t.kind = .header → _ :=
    fun t ht => Statement.lead_of_header hgroup ht
  have hplace : ∃ p, (source.failure (failure, s)).position? = some p ∧
      p = (HasPlace.place? failure).getD s.position := by
    cases failure <;> exact ⟨_, rfl, rfl⟩
  obtain ⟨p, hp, hplaced⟩ := hplace
  refine ⟨before, after, e, p, rfl, hbefore, hp, ?_⟩
  -- Only a header that lacks its variable may be blamed on the start of the text.
  by_cases hvariable : s.LacksVariable e.scopes
  · exact .inr (.inl hvariable)
  rcases Emission.step_refuses hstands (absurd · hvariable) (hleads s hs) hstep with
    hshown | ⟨hdeny, hkind, name, q, hannounced, rfl⟩
  · left
    rw [hplaced]
    cases hfailure : HasPlace.place? failure with
    | none => exact hposition
    | some q => exact hshown q hfailure
  · refine .inr (.inr ?_)
    have hfirst : ∀ t ∈ before, t.kind = .header → _ :=
      fun t ht => hleads t (List.mem_append_left _ ht)
    rw [Emission.announced_of_run hfirst hbefore] at hannounced
    obtain ⟨own, hawaits, rfl, rfl⟩ := Statement.awaitBrace_of_announces hannounced
    exact ⟨hdeny, hkind, own, hawaits, hplaced, rfl⟩

end Source

/-- A program with an initializer that stops too early. -/
private def brokenSum : Source :=
  ⟨"broken", "main \x7b\nvar sum: i32 = 1 +\n\x7d\n"⟩

/-- The error stands behind the sign, inside the statement: an operand is missing there, and no
token can be blamed for that. -/
theorem brokenSum_points :
    ∃ tokens statements failure s, brokenSum.significant = .ok tokens ∧
      brokenSum.statements tokens = .ok statements ∧
      Emission.run false {} statements = .error (failure, s) ∧
      s.text = "var sum : i32 = 1 +" ∧
      (brokenSum.failure (failure, s)).position? = some ⟨2, 19⟩ ∧
      brokenSum.compile {} = .error (brokenSum.failure (failure, s)) ∧
      ∃ before after e p, statements = before ++ s :: after ∧
        Emission.run false {} before = .ok e ∧
        (brokenSum.failure (failure, s)).position? = some p ∧
        (s.Spans p ∨ s.LacksVariable e.scopes ∨
          false = true ∧ s.kind = .opening ∧ ∃ own,
            Statement.AwaitBrace before own ∧ p = own.position ∧
            failure = .violation (Emission.shadowWarning own.lexeme own.position).denial) := by
  have hchecked : (do
      let tokens ← brokenSum.significant.toOption
      let statements ← (brokenSum.statements tokens).toOption
      match Emission.run false {} statements with
      | .ok _ => none
      | .error failed =>
        some (failed.2.text, (brokenSum.failure failed).position?)) =
      some ("var sum : i32 = 1 +", some ⟨2, 19⟩) := by
    decide +kernel
  simp only [Option.bind_eq_bind, Option.bind_eq_some_iff] at hchecked
  obtain ⟨tokens, htokens, statements, hstatements, hrun⟩ := hchecked
  split at hrun
  · cases hrun
  · rename_i failed hfailed
    obtain ⟨failure, s⟩ := failed
    simp only [Option.some.injEq, Prod.mk.injEq] at hrun
    obtain ⟨htext, hposition⟩ := hrun
    have htokens := eq_ok_of_toOption htokens
    have hstatements := eq_ok_of_toOption hstatements
    exact ⟨tokens, statements, failure, s, htokens, hstatements, hfailed, htext, hposition,
      Source.failure_points htokens hstatements hfailed⟩

/-- A program with a loop variable that hides another one. -/
private def hidingLoop : Source :=
  ⟨"loop", "var i: i32\nmain \x7b\nfor var i = 0; 3 \x7b\n\x7d\n\x7d\n"⟩

/-- Where warnings are denied, the brace of the loop is refused, and the error is shown in front of
it. -/
theorem hidingLoop_points_elsewhere :
    ∃ tokens statements failure s, hidingLoop.significant = .ok tokens ∧
      hidingLoop.statements tokens = .ok statements ∧
      Emission.run true {} statements = .error (failure, s) ∧
      hidingLoop.compile { denyWarnings := true } = .error (hidingLoop.failure (failure, s)) ∧
      (hidingLoop.failure (failure, s)).position? = some ⟨3, 9⟩ ∧ s.position = ⟨3, 18⟩ ∧
      ¬ s.Spans ⟨3, 9⟩ := by
  have hchecked : (do
      let tokens ← hidingLoop.significant.toOption
      let statements ← (hidingLoop.statements tokens).toOption
      match Emission.run true {} statements with
      | .ok _ => none
      | .error failed =>
        some (failed.2.position, (hidingLoop.failure failed).position?)) =
      some (⟨3, 18⟩, some ⟨3, 9⟩) := by
    decide +kernel
  simp only [Option.bind_eq_bind, Option.bind_eq_some_iff] at hchecked
  obtain ⟨tokens, htokens, statements, hstatements, hrun⟩ := hchecked
  split at hrun
  · cases hrun
  · rename_i failed hfailed
    obtain ⟨failure, s⟩ := failed
    simp only [Option.some.injEq, Prod.mk.injEq] at hrun
    obtain ⟨hbrace, hposition⟩ := hrun
    have htokens := eq_ok_of_toOption htokens
    have hstatements := eq_ok_of_toOption hstatements
    refine ⟨tokens, statements, failure, s, htokens, hstatements, hfailed,
      Source.compile_of_run htokens hstatements hfailed, hposition, hbrace, fun hspans => ?_⟩
    have hbefore := hspans.1
    rw [hbrace] at hbefore
    simp [Position.Reaches] at hbefore

end Sprout
