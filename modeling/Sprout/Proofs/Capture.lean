import Mathlib
import Sprout.Proofs.Emission.Acceptance
import Sprout.Proofs.Scopes.History

namespace Sprout

variable {deny : Bool} {name : String}

/-- A loop header `for var own = initial`, perhaps with a type behind the name. -/
structure Statement.DeclaresLoop (s : Statement) (own : Token) (initial : List Token) : Prop where
  kind : s.kind = .header
  lead : s.lead.kind = .keyword .forWord
  split : ∃ first declaration equal, first.kind = .keyword .var ∧
    Token.splitTop (· = .equal) 0 s.rest = some (first :: own :: declaration, equal, initial)

/-- A name with a meaning is declared in the innermost scope, or hidden by a new declaration. -/
theorem Scopes.isShadowing_of_lookup {scopes : Scopes} {symbol : Symbol}
    (h : scopes.lookup name = some symbol) (hnew : scopes.current.contains name = false) :
    scopes.isShadowing name = true := by
  simp only [lookup, all, List.findSome?_cons] at h
  split at h
  · rename_i own hown
    simp [Scope.contains, hown] at hnew
  · rw [List.findSome?_eq_some_iff] at h
    obtain ⟨before, scope, after, henclosing, hscope, -⟩ := h
    have haround : scopes.enclosing.any (·.contains name) = true := by
      simp [henclosing, Scope.contains, hscope]
    rw [isShadowing, hnew, haround]
    rfl

namespace Emission

variable {e e' : Emission}

/-- A name that is declared was new to the innermost scope, which keeps its other names. -/
theorem declare_eq_ok {symbol : Symbol} {position : Position}
    (h : e.declare deny name symbol position = .ok e') :
    e.scopes.current.contains name = false ∧
      ∀ other, e.scopes.current.contains other = true → e'.scopes.current.contains other = true := by
  simp only [declare, bind_eq_ok_iff] at h
  obtain ⟨⟨declared, scopes⟩, hdeclare, h⟩ := h
  obtain ⟨hnew, rfl⟩ := Scopes.eq_of_declare hdeclare
  refine ⟨hnew, fun other hother => ?_⟩
  have hkeeps : e'.scopes.current.symbols = (name, symbol) :: e.scopes.current.symbols := by
    dsimp only at h
    split at h
    · cases h
      rfl
    · rw [report_eq_ok h]
  rw [Scope.contains, Scope.find?, hkeeps, List.lookup_cons]
  by_cases hsame : (other == name) = true
  · simp [hsame]
  · simpa [hsame, Scope.contains, Scope.find?] using hother

/-- No name that is bound was declared in the innermost scope before. -/
theorem not_contains_of_bind {mutable : Bool} {bindings : List Binding}
    (h : e.bind deny mutable bindings = .ok e') :
    ∀ b ∈ bindings, e.scopes.current.contains b.name.lexeme = false := by
  induction bindings generalizing e with
  | nil => intro b hb; cases hb
  | cons first bindings ih =>
    simp only [bind, bind_eq_ok_iff, mapError_eq_ok_iff] at h
    obtain ⟨e₁, hfirst, hothers⟩ := h
    obtain ⟨hnew, hkeeps⟩ := declare_eq_ok hfirst
    intro b hb
    cases hb with
    | head => exact hnew
    | tail _ hb =>
      have hlater := ih hothers b hb
      by_contra hcontains
      rw [hkeeps _ (by simpa using hcontains)] at hlater
      cases hlater

end Emission

namespace Declaration

variable {scopes : Scopes} {d : Declaration} {plan : Plan}

/-- The names that are bound are those that are declared, in order. -/
theorem names_of_planNames {isConstant : Bool} {declared : Option Ty}
    {entries : List (Token × Expr × Typed)}
    (h : (planNames isConstant declared entries).outcome = .ok plan) :
    plan.bindings.map Binding.name = entries.map (·.1) := by
  obtain ⟨planned, rfl, hplanned⟩ := forall₂_of_planNames h
  clear h
  induction hplanned with
  | nil => rfl
  | cons hitem _ ih =>
    obtain ⟨own, text, -, -, -, hbinding⟩ := eq_of_planName hitem
    simp only [List.map_cons, hbinding, List.cons.injEq, true_and]
    exact ih

/-- The plan of a declaration binds all its names, in order, whether they get default values, the
members of a call, or initial values. -/
theorem names_of_plan (h : (d.plan scopes).outcome = .ok plan) :
    plan.bindings.map Binding.name = d.names := by
  obtain ⟨type, -, hcases⟩ := plan_cases h
  rcases hcases with ⟨-, hplan⟩ | ⟨call, members, position, hunpacked, hplan⟩ | ⟨first, -, hplan⟩
  · obtain ⟨own, -, rfl⟩ := eq_of_planDefault hplan
    simp [Function.comp_def]
  · obtain ⟨_, -, -, -, hlength⟩ := eq_of_unpackable hunpacked
    obtain ⟨hbindings, -⟩ := eq_of_planUnpacked hplan
    rw [hbindings, List.map_map]
    exact List.map_fst_zip (Nat.le_of_eq hlength.symm)
  · obtain ⟨hcount, values, hvalues, hnames⟩ := planInitialized_eq_ok hplan
    have hlength := (accepted_of_initialValues hvalues).1
    rw [names_of_planNames hnames]
    refine List.map_fst_zip (Nat.le_of_eq ?_)
    rw [length_spread (by rwa [hlength])]

/-- A declaration that is not refused hides no name that an initializer mentions. -/
theorem mentions_of_checkShadowing (h : d.checkShadowing scopes = .ok ()) {own : Token}
    (hown : own ∈ d.names) (hhides : scopes.isShadowing own.lexeme = true) :
    ∀ e ∈ d.initializers, e.mentions own.lexeme = false := by
  simp only [checkShadowing] at h
  split at h
  · rename_i hnone
    rw [List.findSome?_eq_none_iff] at hnone
    have hreader := hnone own (List.mem_filter.2 ⟨hown, hhides⟩)
    intro e he
    simpa using List.find?_eq_none.1 (Option.map_eq_none_iff.1 hreader) e he
  · cases h

end Declaration

namespace Emission

variable {e e' : Emission} {s : Statement}

/-- A declaration that is emitted looks up none of its own names. -/
theorem declaration_not_reads (h : e.declaration deny s = .ok e') :
    ∃ d, Declaration.read s = .ok d ∧
      ∀ own ∈ d.names, ∀ init ∈ d.initializers, ¬ init.Reads own.lexeme := by
  obtain ⟨d, plan, bound, hread, hcheck, hplan, hbind, -⟩ := eq_of_declaration h
  refine ⟨d, hread, fun own hown init hinit hreads => ?_⟩
  have haccepted := (Declaration.accepted_of_plan hplan).1 init hinit
  obtain ⟨symbol, hsymbol⟩ := haccepted.lookup hreads
  have hnew : e.scopes.current.contains own.lexeme = false := by
    rw [← Declaration.names_of_plan hplan] at hown
    obtain ⟨b, hb, rfl⟩ := List.mem_map.1 hown
    exact not_contains_of_bind hbind b hb
  have hhides := Scopes.isShadowing_of_lookup hsymbol hnew
  have hmentions := Declaration.mentions_of_checkShadowing hcheck hown hhides init hinit
  rw [hreads.mentions] at hmentions
  cases hmentions

/-- The loop variable `name` of a header that waits for its brace: the header refuses clauses that
mention the name, if it means anything outside the loop. If it means nothing there, no clause can
look it up at all. -/
def Guards (name : String) (e : Emission) : Prop :=
  ∃ header, e.pending = some (.loop header) ∧
    header.shadowed = (e.scopes.lookup name).map fun _ => name

/-- The first clause of a loop does not look up the variable that it declares, and the header keeps
the others from doing so. -/
theorem loop_not_reads {own : Token} {initial : List Token} (h : e.step deny s = .ok e')
    (hloop : s.DeclaresLoop own initial) :
    (∃ init, Expr.parse initial = .ok init ∧ ¬ init.Reads own.lexeme) ∧ Guards own.lexeme e' := by
  obtain ⟨hkind, hlead, first, declaration, equal, hfirst, hsplit⟩ := hloop
  obtain ⟨header, hheader, hpending, hscopes⟩ := loop_of_step h hkind hlead
  obtain ⟨_, _, _, init, start, hsplit', hparse, hstart, hcases⟩ := loopHeader_cases hheader
  rw [hsplit] at hsplit'
  cases hsplit'
  rcases hcases with ⟨_, _, heq, -, hcheck, hdeclaring⟩ | ⟨hnot, -⟩
  · cases heq
    obtain ⟨name, type, text, hname, -, -, -, rfl⟩ := eq_of_declaringHeader hdeclaring
    obtain ⟨-, others, hown⟩ := declaredName?_eq_some hname
    cases hown
    refine ⟨⟨init, hparse, fun hreads => ?_⟩, _, hpending, by rw [hscopes]⟩
    obtain ⟨symbol, hsymbol⟩ := (Expr.Accepted.of_value hstart).lookup hreads
    simp [checkStart, hname, hsymbol, hreads.mentions] at hcheck
  · exact absurd hfirst (hnot first rfl)

/-- A clause of a guarded loop does not look up the loop variable, and the loop stays guarded. -/
theorem clause_not_reads (h : e.step deny s = .ok e') (hkind : s.kind = .bound ∨ s.kind = .step)
    (hguards : Guards name e) :
    (∃ expr, Expr.parse s.tokens = .ok expr ∧ ¬ expr.Reads name) ∧ Guards name e' := by
  obtain ⟨part, hclause⟩ := clause_of_step h hkind
  obtain ⟨expr, typed, header, hparse, htyped, hpending, hmentions, rfl⟩ := eq_of_clause hclause
  obtain ⟨header₀, hpending₀, hguard⟩ := hguards
  have hsame := hpending₀.symm.trans hpending
  cases hsame
  refine ⟨⟨expr, hparse, fun hreads => ?_⟩, _, rfl, by rw [shadowed_withClause, hguard]⟩
  obtain ⟨symbol, hsymbol⟩ := (Expr.Accepted.of_value (value_of_clauseValue htyped).1).lookup hreads
  have hfalse := hmentions name (by rw [hguard, hsymbol]; rfl)
  rw [hreads.mentions] at hfalse
  cases hfalse

/-- As long as the clauses of a guarded loop go on, none of them looks up the loop variable. -/
theorem run_clauses_not_reads {clauses after : List Statement}
    (h : run deny e (clauses ++ after) = .ok e')
    (hkinds : ∀ c ∈ clauses, c.kind = .bound ∨ c.kind = .step) (hguards : Guards name e) :
    ∀ c ∈ clauses, ∃ expr, Expr.parse c.tokens = .ok expr ∧ ¬ expr.Reads name := by
  induction clauses generalizing e with
  | nil => intro c hc; cases hc
  | cons first clauses ih =>
    rw [List.forall_mem_cons] at hkinds ⊢
    obtain ⟨e₁, hstep, hrun⟩ := run_cons h
    obtain ⟨hfirst, hguards⟩ := clause_not_reads hstep hkinds.1 hguards
    exact ⟨hfirst, ih hrun hkinds.2 hguards⟩

/-- Nothing that a run of statements gets through captures a name. A declaration looks up none of
the names it declares in its initializers; and a loop header that declares its variable looks it up
neither in the initial value nor in the clauses that follow. A run that fails later on, or stops
before a brace, gets through what comes before. -/
theorem run_captures_nothing {statements : List Statement} (h : run deny e statements = .ok e') :
    (∀ before s after, statements = before ++ s :: after →
      s.kind = .declaration ∨ s.kind = .initialization →
      ∃ d, Declaration.read s = .ok d ∧
        ∀ own ∈ d.names, ∀ init ∈ d.initializers, ¬ init.Reads own.lexeme) ∧
      ∀ before s clauses after own initial, statements = before ++ s :: (clauses ++ after) →
        s.DeclaresLoop own initial → (∀ c ∈ clauses, c.kind = .bound ∨ c.kind = .step) →
        (∃ init, Expr.parse initial = .ok init ∧ ¬ init.Reads own.lexeme) ∧
          ∀ c ∈ clauses, ∃ expr, Expr.parse c.tokens = .ok expr ∧ ¬ expr.Reads own.lexeme := by
  constructor
  · rintro before s after rfl hkind
    obtain ⟨e₁, e₂, -, hstep, -⟩ := run_append h
    exact declaration_not_reads (declaration_of_step hstep hkind)
  · rintro before s clauses after own initial rfl hloop hkinds
    obtain ⟨e₁, e₂, -, hstep, hrun⟩ := run_append h
    obtain ⟨hinit, hguards⟩ := loop_not_reads hstep hloop
    exact ⟨hinit, run_clauses_not_reads hrun hkinds hguards⟩

/-- The declaration `var b = a`. -/
private def copyOfA : Statement :=
  ⟨.initialization, ⟨.keyword .var, "var", ⟨3, 1⟩⟩,
    [⟨.identifier, "b", ⟨3, 5⟩⟩, ⟨.equal, "=", ⟨3, 7⟩⟩, ⟨.identifier, "a", ⟨3, 9⟩⟩]⟩

/-- The first clause of `for var a = b; b`, whose variable hides another one. -/
private def hidingLoop : Statement :=
  ⟨.header, ⟨.keyword .forWord, "for", ⟨4, 1⟩⟩,
    [⟨.keyword .var, "var", ⟨4, 5⟩⟩, ⟨.identifier, "a", ⟨4, 9⟩⟩, ⟨.equal, "=", ⟨4, 11⟩⟩,
      ⟨.identifier, "b", ⟨4, 13⟩⟩]⟩

private def hidingBound : Statement :=
  ⟨.bound, ⟨.identifier, "b", ⟨4, 16⟩⟩, []⟩

/-- The global `var a = 1` and the opening of the main block. -/
private def hidingPrelude : List Statement :=
  [⟨.initialization, ⟨.keyword .var, "var", ⟨1, 1⟩⟩,
      [⟨.identifier, "a", ⟨1, 5⟩⟩, ⟨.equal, "=", ⟨1, 7⟩⟩, ⟨.integer, "1", ⟨1, 9⟩⟩]⟩,
    ⟨.main, ⟨.keyword .main, "main", ⟨2, 1⟩⟩, []⟩, ⟨.opening, ⟨.openBrace, "\x7b", ⟨2, 6⟩⟩, []⟩]

/-- A loop may hide a variable that none of its clauses reads. -/
theorem hidingLoop_captures_nothing :
    ∃ e', run false {} (hidingPrelude ++ copyOfA :: hidingLoop :: [hidingBound]) = .ok e' ∧
      (∃ d, Declaration.read copyOfA = .ok d ∧
        ∀ own ∈ d.names, ∀ init ∈ d.initializers, ¬ init.Reads own.lexeme) ∧
      (∃ init, Expr.parse [⟨.identifier, "b", ⟨4, 13⟩⟩] = .ok init ∧ ¬ init.Reads "a") ∧
      ∃ bound, Expr.parse hidingBound.tokens = .ok bound ∧ ¬ bound.Reads "a" := by
  have hisOk : (run false {}
      (hidingPrelude ++ copyOfA :: hidingLoop :: [hidingBound])).isOk = true := by decide +kernel
  obtain ⟨e', hrun⟩ := exists_eq_ok_of_isOk hisOk
  obtain ⟨hdeclarations, hloops⟩ := run_captures_nothing hrun
  obtain ⟨hinit, hclauses⟩ := hloops (hidingPrelude ++ [copyOfA]) hidingLoop [hidingBound] []
    ⟨.identifier, "a", ⟨4, 9⟩⟩ [⟨.identifier, "b", ⟨4, 13⟩⟩] rfl
    ⟨rfl, rfl, ⟨.keyword .var, "var", ⟨4, 5⟩⟩, [], ⟨.equal, "=", ⟨4, 11⟩⟩, rfl, rfl⟩
    (by simp [hidingBound])
  exact ⟨e', hrun, hdeclarations hidingPrelude copyOfA _ rfl (.inr rfl), hinit,
    hclauses hidingBound (by simp)⟩

end Emission

end Sprout
