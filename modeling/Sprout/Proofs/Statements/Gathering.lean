import Sprout.Proofs.Stages

namespace Sprout

namespace Grouping

/-- Whether a token is added to a statement: it is no brace, and neither left out nor refused. A
piece says of its tokens why none of them starts a new statement. -/
def isOrdinary (t : Token) : Bool :=
  t.kind ∉ [.eof, .comment, .unknown, .openBrace, .closeBrace]

/-- A token that is added to a statement takes part in the program and is no brace. -/
theorem kind_of_isOrdinary {t : Token} (h : isOrdinary t = true) :
    t.isSignificant = true ∧ t.kind ≠ .openBrace ∧ t.kind ≠ .closeBrace := by
  simp only [isOrdinary, List.mem_cons, List.not_mem_nil, or_false, decide_eq_true_eq, not_or] at h
  obtain ⟨heof, hcomment, -, hbraces⟩ := h
  exact ⟨by simpa [Token.isSignificant] using And.intro hcomment heof, hbraces⟩

/-- The tokens of statements, in order. -/
def tokensOf (statements : List Statement) : List Token :=
  statements.flatMap Statement.tokens

/-- Statements hold their tokens one behind the other. -/
theorem tokensOf_append (before after : List Statement) :
    tokensOf (before ++ after) = tokensOf before ++ tokensOf after :=
  List.flatMap_append

/-- Whether a token is the brace of a kind of statement. -/
def IsBrace (kind : Statement.Kind) (t : Token) : Prop :=
  kind = .opening ∧ t.kind = .openBrace ∨ kind = .closing ∧ t.kind = .closeBrace

/-- A clause holds the tokens it is made of, of which there is at least one. -/
theorem tokens_of_clause {header : Token} {kind : Statement.Kind} {run : List Token} {s : Statement}
    (h : Statement.clause header kind run = .ok s) :
    s.kind = kind ∧ s.tokens = run ∧ 0 < run.length := by
  cases run with
  | nil => cases h
  | cons lead rest =>
    cases h
    exact ⟨rfl, rfl, by simp⟩

/-- A loop header has a first clause and a bound, and perhaps a step: the runs between its cuts. -/
theorem forHeader_cases {header : Token} {rest : List Token} {cuts : List Nat}
    {made : List Statement} (h : Statement.forHeader header rest cuts = .ok made) :
    ∃ start bound : Statement, start.kind = .header ∧ start.lead = header ∧ start.rest ≠ [] ∧
      bound.kind = .bound ∧
      ((made = [start, bound] ∧ cuts = [start.tokens.length] ∧
          header :: rest = start.tokens ++ bound.tokens) ∨
        ∃ step : Statement, step.kind = .step ∧ made = [start, bound, step] ∧
          cuts = [start.tokens.length, start.tokens.length + bound.tokens.length] ∧
          header :: rest = start.tokens ++ (bound.tokens ++ step.tokens)) := by
  unfold Statement.forHeader at h
  split at h
  · cases h
  · rename_i first
    simp only [bind_eq_ok_iff] at h
    obtain ⟨start, hstart, bound, hbound, heq⟩ := h
    cases heq
    obtain ⟨-, hstart, hstartPos⟩ := tokens_of_clause hstart
    obtain ⟨hkind, hbound, hboundPos⟩ := tokens_of_clause hbound
    simp only [List.length_take, List.length_drop] at hstartPos hboundPos
    -- No clause is empty, so what it takes is all there, and the cut is the number of its tokens.
    have hlength : start.tokens.length = first - 1 := by rw [hstart, List.length_take]; omega
    refine ⟨⟨.header, header, start.tokens⟩, bound, rfl, rfl, by simp [Statement.tokens], hkind,
      .inl ⟨rfl, ?_, ?_⟩⟩
    · show [first] = [start.tokens.length + 1]
      rw [hlength, Nat.sub_add_cancel (by omega)]
    · show header :: rest = header :: start.tokens ++ bound.tokens
      rw [hstart, hbound, List.cons_append, List.take_append_drop]
  · rename_i first second
    simp only [bind_eq_ok_iff] at h
    obtain ⟨start, hstart, bound, hbound, step, hstep, heq⟩ := h
    cases heq
    obtain ⟨-, hstart, hstartPos⟩ := tokens_of_clause hstart
    obtain ⟨hkind, hbound, hboundPos⟩ := tokens_of_clause hbound
    obtain ⟨hkind', hstep, hstepPos⟩ := tokens_of_clause hstep
    simp only [List.length_take, List.length_drop] at hstartPos hboundPos hstepPos
    have hlength : start.tokens.length = first - 1 := by rw [hstart, List.length_take]; omega
    have hlength' : bound.tokens.length = second - first := by
      rw [hbound, List.length_take, List.length_drop]
      omega
    refine ⟨⟨.header, header, start.tokens⟩, bound, rfl, rfl, by simp [Statement.tokens], hkind,
      .inr ⟨step, hkind', rfl, ?_, ?_⟩⟩
    · show [first, second] = [start.tokens.length + 1, start.tokens.length + 1 + _]
      rw [hlength, hlength', Nat.sub_add_cancel (by omega), Nat.add_sub_cancel' (by omega)]
    · have hback : rest.drop (second - 1) = (rest.drop (first - 1)).drop (second - first) := by
        rw [List.drop_drop]
        congr 1
        omega
      show header :: rest = header :: start.tokens ++ (bound.tokens ++ step.tokens)
      rw [hstart, hbound, hstep, hback, List.take_append_drop, List.cons_append,
        List.take_append_drop]
  · cases h

/-- `Step g t g'`: the token `t` leads from `g` to `g'`. Each rule is one way in which a token is
taken into account, with all that decides that it is this one. -/
inductive Step (g : Grouping) (t : Token) : Grouping → Prop
  /-- Comments and the end of the text are left out. -/
  | skip (ht : t.isSignificant = false) : Step g t g
  /-- A brace ends the current statement and is one of its own. -/
  | brace {kind flushed} (ht : IsBrace kind t) (hflush : g.flush = .ok flushed) :
      Step g t { flushed with made := flushed.made.push ⟨kind, t, []⟩ }
  /-- A semicolon cuts a loop header. -/
  | cut (ht : t.kind = .semicolon) (hdepth : g.depth = 0) (hheader : g.inForHeader = true) :
      Step g t { g with cuts := g.current.length :: g.cuts }
  /-- A semicolon ends any other statement. -/
  | finish {flushed} (ht : t.kind = .semicolon) (hdepth : g.depth = 0)
      (hheader : g.inForHeader = false) (hflush : g.flush = .ok flushed) : Step g t flushed
  /-- A token starts a new statement. -/
  | start {flushed} (ht : isOrdinary t = true) (hkind : t.kind ≠ .semicolon) (hdepth : g.depth = 0)
      (hends : g.endsBefore t = true) (hflush : g.flush = .ok flushed) : Step g t (flushed.append t)
  /-- A token belongs to the current statement. -/
  | stay (ht : isOrdinary t = true)
      (hstays : g.depth = 0 → t.kind ≠ .semicolon ∧ g.endsBefore t = false) : Step g t (g.append t)

variable {g g' : Grouping} {t : Token} {ts : List Token}

/-- A token that is added does one of a few things, depending on its kind and on what has been
gathered. -/
theorem Step.of_push (h : g.push t = .ok g') : Step g t g' := by
  unfold push at h
  split at h
  · rename_i heof
    cases h
    exact .skip (by simp [Token.isSignificant, heof])
  · rename_i hcomment
    cases h
    exact .skip (by simp [Token.isSignificant, hcomment])
  · cases h
  · rename_i hopening
    obtain ⟨flushed, hflush, heq⟩ := bind_eq_ok_iff.1 h
    cases heq
    exact .brace (.inl ⟨rfl, hopening⟩) hflush
  · rename_i hclosing
    obtain ⟨flushed, hflush, heq⟩ := bind_eq_ok_iff.1 h
    cases heq
    exact .brace (.inr ⟨rfl, hclosing⟩) hflush
  · rename_i heof hcomment hunknown hopening hclosing
    have hordinary : isOrdinary t = true := by
      simp only [isOrdinary, List.mem_cons, List.not_mem_nil, or_false, decide_eq_true_eq, not_or]
      exact ⟨heof, hcomment, hunknown, hopening, hclosing⟩
    split at h
    · rename_i hsemicolon
      simp only [Bool.and_eq_true, decide_eq_true_eq] at hsemicolon
      split at h
      · rename_i hheader
        cases h
        exact .cut hsemicolon.1 hsemicolon.2 hheader
      · rename_i hheader
        exact .finish hsemicolon.1 hsemicolon.2 (Bool.eq_false_iff.2 hheader) h
    · rename_i hsemicolon
      simp only [Bool.and_eq_true, decide_eq_true_eq, not_and] at hsemicolon
      split at h
      · rename_i hends
        simp only [Bool.and_eq_true, decide_eq_true_eq] at hends
        obtain ⟨flushed, hflush, heq⟩ := bind_eq_ok_iff.1 h
        cases heq
        exact .start hordinary (fun ht => hsemicolon ht hends.1) hends.1 hends.2 hflush
      · rename_i hends
        cases h
        exact .stay hordinary fun hzero => ⟨fun ht => hsemicolon ht hzero, by simpa [hzero] using hends⟩

/-- What ends is made into statements that hold its tokens and meet at its cuts. -/
theorem exists_made_of_flush (h : g.flush = .ok g') :
    ∃ new, g' = { made := g.made ++ new.toArray } ∧ tokensOf new = g.current.reverse ∧
      ∀ front back, new = front ++ back → front ≠ [] → back ≠ [] →
        (tokensOf front).length ∈ g.cuts := by
  unfold flush at h
  split at h
  · rename_i hnil
    cases h
    refine ⟨[], by simp, hnil.symm, fun front back heq hfront => ?_⟩
    exact absurd (List.append_eq_nil_iff.1 heq.symm).1 hfront
  · rename_i lead rest hcons
    rw [hcons]
    split at h
    · obtain ⟨made, hmade, heq⟩ := bind_eq_ok_iff.1 h
      cases heq
      obtain ⟨start, bound, -, rfl, -, -, hcases⟩ := forHeader_cases hmade
      refine ⟨made, rfl, ?_, fun front back heq hfront hback => ?_⟩
      · rcases hcases with ⟨rfl, -, htokens⟩ | ⟨step, -, rfl, -, htokens⟩ <;>
          simp [tokensOf, htokens]
      · rw [← List.mem_reverse]
        rcases hcases with ⟨rfl, hcuts, -⟩ | ⟨step, -, rfl, hcuts, -⟩ <;> rw [hcuts]
        · rcases front with _ | ⟨_, _ | ⟨_, _⟩⟩ <;> simp_all [tokensOf]
        · rcases front with _ | ⟨_, _ | ⟨_, _ | ⟨_, _⟩⟩⟩ <;> simp_all [tokensOf]
    · cases h
      refine ⟨[⟨Statement.classify lead rest, lead, rest⟩], by simp,
        by simp [tokensOf, Statement.tokens], fun front back heq hfront hback => ?_⟩
      rcases front with _ | ⟨_, _ | ⟨_, _⟩⟩ <;> simp_all

/-- What holds of a grouping and is kept by every token holds of what the tokens are gathered into, by
induction on the tokens. -/
theorem run_induction {I : Grouping → Prop} (hstart : I g)
    (hstep : ∀ t ∈ ts, ∀ h h', I h → Step h t h' → I h') (hrun : ts.foldlM push g = .ok g') :
    I g' := by
  induction ts generalizing g with
  | nil =>
    cases hrun
    exact hstart
  | cons t ts ih =>
    rw [List.forall_mem_cons] at hstep
    obtain ⟨next, hnext, hrun⟩ := bind_eq_ok_iff.1 hrun
    exact ih (hstep.1 g next hstart (.of_push hnext)) hstep.2 hrun

end Grouping

end Sprout
