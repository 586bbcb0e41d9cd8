import Sprout.Proofs.Emission.OneMain
import Sprout.Proofs.Statements.Pieces

namespace Sprout

/-- What a statement does to the names in scope. A declaration has no position if no token of the
program stands for the name. -/
inductive Deed
  | enter
  | leave
  | declare (name : String) (position : Option Position)
deriving DecidableEq

namespace Statement

/-- What a block header announces for its block: `main` the arguments, `for var` the variable of the
loop. A clause announces what the header in front of it does. -/
def announces (waiting : List Deed) (s : Statement) : List Deed :=
  match s.kind, s.rest with
  | .main, _ => [.declare "args" none]
  | .header, first :: name :: _ =>
    if s.lead.kind = .keyword .forWord ∧ first.kind = .keyword .var then
      [.declare name.lexeme (some name.position)]
    else []
  | .bound, _ | .step, _ => waiting
  | _, _ => []

end Statement

/-- What a header that waits for its brace will declare behind it. -/
def Header.deeds : Header → List Deed
  | .main => [.declare "args" none]
  | .loop header => (header.declares.map fun own => .declare own.name (some own.position)).toList
  | .block .. => []

namespace Emission

/-- What an emission waits to declare behind the next brace. -/
def announced (e : Emission) : List Deed :=
  (e.pending.map Header.deeds).getD []

variable {deny : Bool} {e e' : Emission} {s : Statement}

/-- A loop header waits with the variable that it declares. The headers of `if` and `while`, and
loops that reuse a variable, wait with none. -/
theorem deeds_of_headerOf {header : Header} (hkind : s.kind = .header)
    (hlead : s.lead.kind = .keyword .ifWord ∨ s.lead.kind = .keyword .whileWord ∨
      s.lead.kind = .keyword .forWord)
    (h : (headerOf e.scopes s).outcome = .ok header) (waiting : List Deed) :
    header.deeds = s.announces waiting := by
  rcases hlead with hlead | hlead | hlead <;> simp only [headerOf, hlead] at h
  · simp only [Checked.outcome_bind_eq_ok_iff] at h
    obtain ⟨text, -, heq⟩ := h
    cases heq
    unfold Statement.announces
    split <;> simp_all [Header.deeds]
  · simp only [Checked.outcome_bind_eq_ok_iff] at h
    obtain ⟨text, -, heq⟩ := h
    cases heq
    unfold Statement.announces
    split <;> simp_all [Header.deeds]
  · simp only [Checked.outcome_bind_eq_ok_iff] at h
    obtain ⟨loop, hloop, heq⟩ := h
    cases heq
    obtain ⟨target, equal, initial, init, start, hsplit, -, -, hcases⟩ := loopHeader_cases hloop
    obtain ⟨hrest, hequal⟩ := Token.eq_append_of_splitTop hsplit
    rcases hcases with ⟨first, declaration, rfl, hvar, -, hdeclaring⟩ | ⟨hnot, hreusing⟩
    · obtain ⟨name, type, text, hname, -, -, -, rfl⟩ := eq_of_declaringHeader hdeclaring
      obtain ⟨-, others, rfl⟩ := declaredName?_eq_some hname
      simp [Header.deeds, Statement.announces, hkind, hrest, hlead, hvar]
    · obtain ⟨named, typed, text, -, -, -, -, -, rfl⟩ := eq_of_reusingHeader hreusing
      have hnone : (Header.loop { type := "", name := typed.text, start := text }).deeds = [] := rfl
      have hfirst : ∀ t ∈ s.rest.head?, t.kind ≠ .keyword .var := by
        rw [hrest]
        cases target with
        | nil =>
          rintro t ⟨⟩ hvar
          simp [hvar] at hequal
        | cons first target => exact hnot
      rw [hnone]
      unfold Statement.announces
      split
      · simp_all
      · rename_i first _ _ _ hsplit
        rw [hsplit] at hfirst
        rw [if_neg fun hvar => hfirst first rfl hvar.2]
      · simp_all
      · simp_all
      · rfl

/-- The block of an `else` declares nothing of its own. -/
theorem announced_of_alternative {closed : Option Scope.Kind}
    (h : e.alternative deny closed s = .ok e') : e'.announced = [] := by
  obtain ⟨-, waiting, hwaiting, rfl⟩ := eq_of_alternative h
  rcases alternativeOf_cases hwaiting with ⟨-, rfl⟩ | ⟨next, run, text, -, -, -, rfl⟩ <;> rfl

/-- Behind an opening brace nothing waits. -/
theorem announced_of_opens (h : Opens deny e e') : e'.announced = [] := by
  have hpending : e'.pending = none := by
    cases h with
    | plain | goesOn | block => rfl
    | main _ hmain =>
      obtain ⟨declared, scopes, -, rfl⟩ := eq_of_openMain hmain
      rfl
    | loop _ hloop =>
      obtain ⟨bound, args, -, -, ⟨-, rfl⟩ | ⟨own, -, hdeclare⟩⟩ := eq_of_openLoop hloop
      · rfl
      · obtain ⟨declared, scopes, -, rfl⟩ := eq_of_declare hdeclare
        rfl
  simp [announced, hpending]

/-- What waits for the next brace is what the statements announce: headers announce, clauses go on
announcing, and the brace takes what was announced. -/
theorem announced_of_step (hlead : s.kind = .header →
      s.lead.kind = .keyword .ifWord ∨ s.lead.kind = .keyword .whileWord ∨
        s.lead.kind = .keyword .forWord)
    (h : e.step deny s = .ok e') : e'.announced = s.announces e.announced := by
  have hadds : Adds { e with closed := none } e' → e.pending = none → e'.announced = [] := by
    rintro ⟨_, _, _, -, -, rfl⟩ hnone
    simp [announced, hnone]
  cases Act.of_step h with
  | start hkind _ hstart =>
    obtain ⟨-, -, -, rfl⟩ := eq_of_start hstart
    simp [announced, Statement.announces, hkind, Header.deeds]
  | declaration hkind hpending hdeclaration =>
    rcases hkind with hkind | hkind <;>
      simpa [Statement.announces, hkind] using hadds (declaration_adds hdeclaration) hpending
  | operation hkind hpending _ hoperation =>
    simpa [Statement.announces, hkind] using hadds (operation_adds hoperation) hpending
  | assignment hkind hpending _ hassignment =>
    simpa [Statement.announces, hkind] using hadds (assignment_adds hassignment) hpending
  | header hkind _ _ hheader =>
    obtain ⟨waiting, hwaiting, rfl⟩ := eq_of_header hheader
    exact deeds_of_headerOf hkind (hlead hkind) hwaiting _
  | alternative hkind _ _ halternative =>
    simpa [Statement.announces, hkind] using announced_of_alternative halternative
  | bound hkind hclause | step hkind hclause =>
    obtain ⟨expr, typed, header, -, -, hwaits, -, rfl⟩ := eq_of_clause hclause
    have hwaits : e.pending = some (.loop header) := hwaits
    simp [announced, hwaits, Header.deeds, Statement.announces, hkind]
  | jump hkind hpending _ hjump =>
    simpa [Statement.announces, hkind] using hadds (jump_adds hjump) hpending
  | result hkind hpending _ hresult =>
    simpa [Statement.announces, hkind] using hadds (result_adds hresult) hpending
  | opening hkind _ hopens => simpa [Statement.announces, hkind] using announced_of_opens hopens
  | closing hkind hpending hcloses =>
    obtain ⟨scope, scopes, inner, -, hinner, rfl⟩ := eq_of_closeBlock hcloses
    have hkept : inner.pending = none := by
      obtain ⟨-, rfl⟩ | ⟨-, rfl⟩ := hinner <;> exact hpending
    simp [announced, line, hkept, Statement.announces, hkind]

/-- What the emission waits with behind a run is what the statements of the run announce, and can be
read off them. -/
theorem announced_of_run {statements : List Statement}
    (hleads : ∀ s ∈ statements, s.kind = .header →
      s.lead.kind = .keyword .ifWord ∨ s.lead.kind = .keyword .whileWord ∨
        s.lead.kind = .keyword .forWord)
    (h : run deny e statements = .ok e') :
    e'.announced = statements.foldl Statement.announces e.announced := by
  induction statements generalizing e with
  | nil =>
    cases h
    rfl
  | cons s statements ih =>
    rw [List.forall_mem_cons] at hleads
    obtain ⟨e₁, hstep, hrun⟩ := run_cons h
    rw [List.foldl_cons, ih hleads.2 hrun, announced_of_step hleads.1 hstep]

end Emission

namespace Statement

/-- Whether statements end with the header of a loop, as far as its clauses have come, and the header
declares the variable that the token `own` names. -/
def AwaitBrace (statements : List Statement) (own : Token) : Prop :=
  ∃ (before : List Statement) (header : Statement) (clauses : List Statement) (first : Token)
    (others : List Token), statements = before ++ header :: clauses ∧
    header.kind = .header ∧ header.lead.kind = .keyword .forWord ∧
    header.rest = first :: own :: others ∧ first.kind = .keyword .var ∧
    ∀ s ∈ clauses, s.kind = .bound ∨ s.kind = .step

/-- What is announced with a place is the variable of a loop header at the end. -/
theorem awaitBrace_of_announces {statements : List Statement} {name : String} {position : Position}
    (h : .declare name (some position) ∈ statements.foldl announces []) :
    ∃ own, AwaitBrace statements own ∧ own.lexeme = name ∧ own.position = position := by
  induction statements using List.reverseRecOn with
  | nil => cases h
  | append_singleton statements s ih =>
    rw [List.foldl_append, List.foldl_cons, List.foldl_nil] at h
    have hclause (hkind : s.kind = .bound ∨ s.kind = .step)
        (hbefore : .declare name (some position) ∈ statements.foldl announces []) :
        ∃ own, AwaitBrace (statements ++ [s]) own ∧ own.lexeme = name ∧
          own.position = position := by
      obtain ⟨own, ⟨before, header, clauses, first, others, rfl, hheader, hfor, hrest, hvar,
        hclauses⟩, hown⟩ := ih hbefore
      refine ⟨own, ⟨before, header, clauses ++ [s], first, others, by simp, hheader, hfor, hrest,
        hvar, fun c hc => ?_⟩, hown⟩
      rcases List.mem_append.1 hc with hc | hc
      · exact hclauses c hc
      · exact List.mem_singleton.1 hc ▸ hkind
    unfold announces at h
    split at h
    · simp at h
    · rename_i first own others hheader hrest
      split at h
      · rename_i hdeclares
        simp only [List.mem_singleton, Deed.declare.injEq, Option.some.injEq] at h
        exact ⟨own, ⟨statements, s, [], first, others, rfl, hheader, hdeclares.1, hrest,
          hdeclares.2, by simp⟩, h.1.symm, h.2.symm⟩
      · cases h
    · exact hclause (.inl ‹_›) h
    · exact hclause (.inr ‹_›) h
    · cases h

end Statement

end Sprout
