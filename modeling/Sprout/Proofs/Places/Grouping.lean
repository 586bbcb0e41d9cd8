import Sprout.Proofs.Places.Checks
import Sprout.Proofs.Statements.Runs

namespace Sprout

variable {P : Position → Prop}

namespace Grouping

variable {g : Grouping}

/-- What is wrong with the clauses of a loop header is blamed on the word that it starts with. -/
theorem refusesIn_clause {header : Token} {kind : Statement.Kind} {run : List Token}
    (hheader : P header.position) : RefusesIn P (Statement.clause header kind run) := by
  cases run with
  | nil => simpa [Statement.clause] using hheader
  | cons lead rest => simp [Statement.clause]

/-- Whatever is wrong with the clauses of a loop header is shown at its first word. -/
theorem refusesIn_forHeader {header : Token} {rest : List Token} {cuts : List Nat}
    (hheader : P header.position) : RefusesIn P (Statement.forHeader header rest cuts) := by
  unfold Statement.forHeader
  split <;> simp [hheader, refusesIn_clause]

/-- A statement that cannot be gathered is blamed on its first token. -/
theorem Holds.refusesIn_flush (hg : g.Holds (P ·.position)) : RefusesIn P g.flush := by
  unfold Grouping.flush
  split
  · simp
  · rename_i lead rest hreverse
    have hlead : P lead.position := by
      refine hg.2 lead (List.mem_reverse.1 ?_)
      rw [hreverse]
      exact List.mem_cons_self
    split <;> simp [refusesIn_forHeader hlead]

/-- A token that cannot be added is blamed on itself or on the statement that it would end. -/
theorem Holds.refusesIn_push {t : Token} (hg : g.Holds (P ·.position)) (ht : P t.position) :
    RefusesIn P (g.push t) := by
  have hflush := hg.refusesIn_flush
  unfold Grouping.push
  split
  · simp
  · simp
  · simpa using ht
  · simp [Grouping.brace, hflush]
  · simp [Grouping.brace, hflush]
  · split
    · split <;> simp [hflush]
    · split <;> simp [hflush]

/-- A list of tokens that cannot be cut into statements is blamed on one of its tokens, by induction
on the list. -/
theorem Holds.refusesIn_foldlM {ts : List Token} (hg : g.Holds (P ·.position))
    (hts : ∀ t ∈ ts, P t.position) : RefusesIn P (ts.foldlM Grouping.push g) := by
  induction ts generalizing g with
  | nil => simp
  | cons t ts ih =>
    rw [List.forall_mem_cons] at hts
    rw [List.foldlM_cons, refusesIn_bind_iff]
    exact ⟨hg.refusesIn_push hts.1, fun next hnext => ih (hg.step hts.1 (.of_push hnext)) hts.2⟩

end Grouping

/-- Cutting blames the tokens that it cuts: a token without its end itself, and what is wrong with
the clauses of a loop header on its first word. -/
theorem Statement.refusesIn_group {ts : List Token} (hts : ∀ t ∈ ts, P t.position) :
    RefusesIn P (group ts) := by
  have hempty : Grouping.Holds (P ·.position) {} := ⟨by simp, by simp⟩
  simp only [group, refusesIn_bind_iff, refusesIn_ok, implies_true, and_true]
  exact ⟨hempty.refusesIn_foldlM hts, fun g hg => (hempty.foldlM hts hg).refusesIn_flush⟩

end Sprout
