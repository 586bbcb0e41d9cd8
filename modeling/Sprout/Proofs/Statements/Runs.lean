import Sprout.Proofs.Statements.Gathering

namespace Sprout

namespace Token

/-- A token that takes part in a program is not the one for the end of its text. -/
theorem ne_eof_of_isSignificant {t : Token} (h : t.isSignificant = true) : t.kind ≠ .eof := by
  simp only [isSignificant, Bool.and_eq_true, decide_eq_true_eq] at h
  exact h.2

/-- A run that is cut at a token consists of what stands before it, the token, and the rest. -/
theorem eq_append_of_splitTop {p : Kind → Bool} {depth : Nat} {run before after : List Token}
    {mid : Token} (h : splitTop p depth run = some (before, mid, after)) :
    run = before ++ mid :: after ∧ p mid.kind = true := by
  induction run generalizing depth before with
  | nil => cases h
  | cons t rest ih =>
    rw [splitTop] at h
    split at h
    · rename_i hcut
      cases h
      simp only [Bool.and_eq_true] at hcut
      exact ⟨rfl, hcut.2⟩
    · obtain ⟨⟨front, mid', after'⟩, hrest, heq⟩ := Option.map_eq_some_iff.1 h
      cases heq
      obtain ⟨rfl, hmid⟩ := ih hrest
      exact ⟨rfl, hmid⟩

/-- The pieces of a run consist of its tokens. -/
theorem subset_of_mem_pieces {depth : Nat} {run : List Token} :
    ∀ piece ∈ pieces depth run, piece ⊆ run := by
  induction run generalizing depth with
  | nil => simp [pieces]
  | cons t rest ih =>
    rw [pieces]
    split
    · rw [List.forall_mem_cons]
      exact ⟨List.nil_subset _, fun piece hpiece => List.subset_cons_of_subset t (ih piece hpiece)⟩
    · have hrest : ∀ piece ∈ pieces (t.kind.depthAfter depth) rest, piece ⊆ rest := ih
      split
      · simp
      · rename_i piece others hpieces
        rw [hpieces, List.forall_mem_cons] at hrest
        rw [List.forall_mem_cons]
        exact ⟨List.cons_subset_cons t hrest.1,
          fun other hother => List.subset_cons_of_subset t (hrest.2 other hother)⟩

/-- What stands between commas stands in the run. -/
theorem subset_of_mem_splitCommas {run : List Token} : ∀ piece ∈ splitCommas run, piece ⊆ run :=
  subset_of_mem_pieces

/-- A keyword in front of a run is no equal sign, and opens and closes no brackets. -/
theorem splitTop_keyword {t : Token} {word : Keyword} (ht : t.kind = .keyword word)
    (rest : List Token) :
    splitTop (· = .equal) 0 (t :: rest) =
      (splitTop (· = .equal) 0 rest).map (Prod.map (t :: ·) id) := by
  rw [splitTop]
  simp [ht, Kind.isOpening, Kind.isClosing, Kind.depthAfter]
  rfl

end Token

namespace Statement

/-- An initializer stands in its statement. -/
theorem subset_of_mem_initializers {run : List Token} : ∀ piece ∈ initializers run, piece ⊆ run := by
  unfold initializers
  split
  · simp
  · rename_i before mid after hsplit
    obtain ⟨rfl, -⟩ := Token.eq_append_of_splitTop hsplit
    intro piece hpiece t ht
    simp [Token.subset_of_mem_splitCommas piece hpiece ht]

/-- The runs of a statement consist of its tokens, whatever its kind. Cutting at commas and equal
signs leaves these out and adds nothing. -/
theorem subset_of_mem_runs {s : Statement} : ∀ run ∈ s.runs, run ⊆ s.tokens := by
  have hcommas {tokens : List Token} (htokens : tokens ⊆ s.tokens) :
      ∀ run ∈ Token.splitCommas tokens, run ⊆ s.tokens :=
    fun run hrun => List.Subset.trans (Token.subset_of_mem_splitCommas run hrun) htokens
  have hrest : s.rest ⊆ s.tokens := List.subset_cons_self s.lead s.rest
  unfold runs
  split
  · exact hcommas (List.Subset.refl _)
  · exact hcommas (List.Subset.refl _)
  · exact hcommas (List.Subset.refl _)
  · exact hcommas hrest
  · exact hcommas (List.Subset.trans (List.drop_subset 1 s.rest) hrest)
  · split
    · exact subset_of_mem_initializers
    · exact hcommas hrest
  · exact subset_of_mem_initializers
  · split
    · simp
    · rename_i before mid after hsplit
      obtain ⟨htokens, -⟩ := Token.eq_append_of_splitTop hsplit
      rw [List.forall_mem_append]
      exact ⟨hcommas (by simp [htokens]), hcommas (by simp [htokens])⟩
  · simp

end Statement

namespace Declaration

/-- A run is cut at its first token of a kind, or not at all. -/
theorem cut_cases (kind : Token.Kind) (run : List Token) :
    cut kind run = (run, none) ∨
      ∃ before mid after, cut kind run = (before, some (mid, after)) ∧
        run = before ++ mid :: after ∧ mid.kind = kind := by
  unfold cut
  split
  · exact .inl rfl
  · rename_i before mid after hsplit
    obtain ⟨hrun, hmid⟩ := Token.eq_append_of_splitTop hsplit
    exact .inr ⟨before, mid, after, rfl, hrun, by simpa using hmid⟩

/-- A declaration is read from its names, its type and its initializers. -/
theorem read_eq_ok {s : Statement} {d : Declaration} (h : read s = .ok d) :
    d.keyword = s.lead ∧
      readNames s.lead (Token.splitCommas (cut .colon (cut .equal s.rest).1).1) = .ok d.names ∧
      readType (cut .colon (cut .equal s.rest).1).2 = .ok d.type ∧
      readInitializers (cut .equal s.rest).2 = .ok d.initializers := by
  simp only [read, bind_eq_ok_iff, liftM_violation_eq_ok_iff] at h
  obtain ⟨names, hnames, h⟩ := h
  cases names with
  | nil => cases h
  | cons name others =>
    simp only [bind_eq_ok_iff, liftM_malformed_eq_ok_iff] at h
    obtain ⟨type, htype, initializers, hinitializers, heq⟩ := h
    cases heq
    exact ⟨rfl, hnames, htype, hinitializers⟩

end Declaration

/-- An assignment is read from the two sides of its operator. -/
theorem Assignment.read_eq_ok {s : Statement} {a : Assignment} (h : read s = .ok a) :
    ∃ before after,
      Token.splitTop Token.Kind.isAssignment 0 s.tokens = some (before, a.operator, after) ∧
        Expr.parseList before = .ok a.targets ∧ Expr.parseList after = .ok a.values := by
  unfold read at h
  split at h
  · cases h
  · rename_i before operator after hsplit
    simp only [bind_eq_ok_iff, liftM_malformed_eq_ok_iff] at h
    obtain ⟨_, hbefore, targets, htargets, _, hafter, values, hvalues, heq⟩ := h
    cases heq
    rw [require_eq_ok hbefore] at htargets
    rw [require_eq_ok hafter] at hvalues
    exact ⟨before, after, hsplit, htargets, hvalues⟩

namespace Grouping

/-- All tokens that a grouping holds satisfy `P`. -/
def Holds (P : Token → Prop) (g : Grouping) : Prop :=
  (∀ s ∈ g.made, ∀ t ∈ s.tokens, P t) ∧ ∀ t ∈ g.current, P t

variable {P : Token → Prop} {g g' : Grouping}

/-- Ending a statement keeps the tokens: each of them goes from the current statement to one of
those made so far. -/
theorem Holds.flush (hholds : g.Holds P) (h : g.flush = .ok g') : g'.Holds P := by
  obtain ⟨new, rfl, htokens, -⟩ := exists_made_of_flush h
  refine ⟨fun s hs t ht => ?_, by simp⟩
  rcases Array.mem_append.1 hs with hs | hs
  · exact hholds.1 s hs t ht
  · have hmem : t ∈ tokensOf new := List.mem_flatMap.2 ⟨s, List.mem_toArray.1 hs, ht⟩
    rw [htokens, List.mem_reverse] at hmem
    exact hholds.2 t hmem

/-- A token that is added is held. -/
theorem Holds.append {t : Token} (hholds : g.Holds P) (ht : P t) : (g.append t).Holds P :=
  ⟨hholds.1, by simpa [Grouping.append, ht] using hholds.2⟩

/-- Taking a token into account adds at most that token, and loses none that is there. -/
theorem Holds.step {t : Token} (hholds : g.Holds P) (ht : P t) (hstep : Step g t g') : g'.Holds P := by
  cases hstep with
  | skip => exact hholds
  | cut => exact hholds
  | brace _ hflush =>
    obtain ⟨hmade, hcurrent⟩ := hholds.flush hflush
    refine ⟨fun s hs => ?_, hcurrent⟩
    rcases Array.mem_push.1 hs with hs | rfl
    · exact hmade s hs
    · simpa [Statement.tokens] using ht
  | finish _ _ _ hflush => exact hholds.flush hflush
  | start _ _ _ _ hflush => exact (hholds.flush hflush).append ht
  | stay => exact hholds.append ht

/-- What holds of all tokens holds of all that are gathered. -/
theorem Holds.foldlM {ts : List Token} (hholds : g.Holds P) (hts : ∀ t ∈ ts, P t)
    (h : ts.foldlM Grouping.push g = .ok g') : g'.Holds P :=
  run_induction hholds (fun t ht _ _ hholds hstep => hholds.step (hts t ht) hstep) h

end Grouping

/-- Statements consist of the tokens that they were made of. -/
theorem Statement.mem_of_group {ts : List Token} {statements : List Statement}
    (h : group ts = .ok statements) : ∀ s ∈ statements, ∀ t ∈ s.tokens, t ∈ ts := by
  simp only [group, bind_eq_ok_iff] at h
  obtain ⟨g, hg, flushed, hflushed, heq⟩ := h
  cases heq
  have hempty : Grouping.Holds (· ∈ ts) {} := ⟨by simp, by simp⟩
  have hholds := (hempty.foldlM (fun _ ht => ht) hg).flush hflushed
  intro s hs
  exact hholds.1 s (by simpa using hs)

/-- The statements of a source consist of its tokens. Cutting adds none, and leaves out only those
at the cuts and those that take no part in the program. -/
theorem Source.mem_of_statements {source : Source} {tokens : List Token}
    {statements : List Statement} (htokens : source.significant = .ok tokens)
    (hstatements : source.statements tokens = .ok statements) :
    ∃ all, source.tokens = .ok all ∧ tokens = all.filter Token.isSignificant ∧
      ∀ s ∈ statements, ∀ t ∈ s.tokens, t ∈ all := by
  obtain ⟨all, hall, rfl⟩ := eq_of_significant htokens
  refine ⟨all, hall, rfl, fun s hs t ht => ?_⟩
  have hmem := Statement.mem_of_group (mapError_eq_ok_iff.1 hstatements) s hs t ht
  exact (List.mem_filter.1 hmem).1

/-- No statement of a source holds the end of its text. -/
theorem Source.ne_eof_of_statements {source : Source} {tokens : List Token}
    {statements : List Statement} (htokens : source.significant = .ok tokens)
    (hstatements : source.statements tokens = .ok statements) :
    ∀ s ∈ statements, ∀ t ∈ s.tokens, t.kind ≠ .eof := by
  obtain ⟨all, -, rfl, -⟩ := mem_of_statements htokens hstatements
  intro s hs t ht
  have hmem := Statement.mem_of_group (mapError_eq_ok_iff.1 hstatements) s hs t ht
  exact Token.ne_eof_of_isSignificant (List.mem_filter.1 hmem).2

end Sprout
