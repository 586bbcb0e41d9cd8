import Sprout.Compile
import Sprout.Proofs.Outcome

namespace Sprout

namespace Source

variable {source : Source} {tokens : List Token} {statements : List Statement}

/-- The tokens of a program are those of its text that take part in it. -/
theorem eq_of_significant (h : source.significant = .ok tokens) :
    ∃ all, source.tokens = .ok all ∧ tokens = all.filter Token.isSignificant := by
  unfold significant at h
  split at h
  · cases h
  · rename_i all hall
    cases h
    exact ⟨all, hall, rfl⟩

/-- What is emitted for a program is what the run over its statements ends with. Nothing is missing
there: no header waits for its brace, and no block is still open. -/
theorem eq_of_emission {deny : Bool} {e : Emission}
    (h : source.emission deny statements = .ok e) :
    Emission.run deny {} statements = .ok e ∧ e.unfinished? = none := by
  simp only [emission, bind_eq_ok_iff, mapError_eq_ok_iff] at h
  obtain ⟨last, hrun, hfinished⟩ := h
  split at hfinished
  · cases hfinished
  · rename_i hunfinished
    cases hfinished
    exact ⟨hrun, hunfinished⟩

/-- A source that compiles is cut into tokens and these into statements, and all of them are emitted.
The program it compiles to is what was emitted. Its diagnostics are those of the emission, behind the
numbers of its tokens and of its statements. -/
theorem eq_of_compile {options : Options} {artifact : Artifact}
    (h : source.compile options = .ok artifact) :
    ∃ tokens statements e, source.significant = .ok tokens ∧
      source.statements tokens = .ok statements ∧
      source.emission options.denyWarnings statements = .ok e ∧
      artifact.code = e.code options ∧
      artifact.diagnostics =
        .summary source.name tokens.length "tokens"
          :: .summary source.name statements.length "instructions" :: e.diagnostics := by
  simp only [compile, bind_eq_ok_iff] at h
  obtain ⟨tokens, htokens, statements, hstatements, e, hemission, heq⟩ := h
  cases heq
  exact ⟨tokens, statements, e, htokens, hstatements, hemission, rfl, rfl⟩

end Source

end Sprout
