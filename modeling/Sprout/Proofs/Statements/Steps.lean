import Sprout.Proofs.Statements.Partition

namespace Sprout

/-- The bracket depth behind tokens, the first of which stands at a depth. Behind a brace the depth
starts over. -/
def Token.nesting (depth : Nat) : List Token → Nat
  | [] => depth
  | t :: rest =>
    nesting (if t.kind = .openBrace ∨ t.kind = .closeBrace then 0 else t.kind.depthAfter depth) rest

namespace Grouping

variable {g g' : Grouping} {t : Token} {ts : List Token}

/-- Comments and the end of the text can be left out beforehand. -/
theorem foldlM_filter (h : ts.foldlM push g = .ok g') :
    (ts.filter Token.isSignificant).foldlM push g = .ok g' := by
  induction ts generalizing g with
  | nil => exact h
  | cons t ts ih =>
    obtain ⟨next, hnext, h⟩ := bind_eq_ok_iff.1 h
    cases hsignificant : t.isSignificant with
    | true =>
      rw [List.filter_cons_of_pos hsignificant, List.foldlM_cons, hnext]
      exact ih h
    | false =>
      have hskip : g.push t = .ok g := by
        unfold push
        split <;> simp_all [Token.isSignificant]
      rw [hskip] at hnext
      cases hnext
      rw [List.filter_cons_of_neg (by simp [hsignificant])]
      exact ih h

/-- The depth of brackets follows the kinds of the tokens. A brace sets it to zero. -/
theorem Step.depth (h : Step g t g') :
    g'.depth =
      if t.kind = .openBrace ∨ t.kind = .closeBrace then 0 else t.kind.depthAfter g.depth := by
  cases h with
  | skip ht =>
    have hkind : t.kind = .comment ∨ t.kind = .eof := by
      simpa [Token.isSignificant, Classical.or_iff_not_imp_left] using ht
    rcases hkind with hkind | hkind <;> rw [hkind] <;> rfl
  | brace ht hflush =>
    obtain ⟨new, rfl, -⟩ := exists_made_of_flush hflush
    rw [if_pos (ht.imp And.right And.right)]
  | cut ht =>
    rw [ht]
    rfl
  | finish ht hdepth _ hflush =>
    obtain ⟨new, rfl, -⟩ := exists_made_of_flush hflush
    rw [hdepth, ht]
    rfl
  | start ht _ hdepth _ hflush =>
    obtain ⟨new, rfl, -⟩ := exists_made_of_flush hflush
    rw [if_neg (not_or.2 (kind_of_isOrdinary ht).2), hdepth]
    rfl
  | stay ht =>
    rw [if_neg (not_or.2 (kind_of_isOrdinary ht).2)]
    rfl

/-- The depth of brackets is the nesting of the tokens so far. -/
theorem depth_of_foldlM (h : ts.foldlM push g = .ok g') :
    g'.depth = Token.nesting g.depth ts := by
  induction ts generalizing g with
  | nil =>
    cases h
    rfl
  | cons t ts ih =>
    obtain ⟨next, hnext, h⟩ := bind_eq_ok_iff.1 h
    rw [ih h, (Step.of_push hnext).depth]
    rfl

/-- Whether a loop header is cut only behind its tokens, of which there are as many as given. -/
def CutsWithin (length : Nat) (g : Grouping) : Prop :=
  ∀ cut ∈ g.cuts, cut ≤ length

/-- Where no semicolon has been noted there is no cut. -/
theorem cutsWithin_of_cuts {length : Nat} (h : g.cuts = []) : g.CutsWithin length := by
  intro cut hcut
  rw [h] at hcut
  cases hcut

/-- Semicolons are noted among the tokens that have been gathered. -/
theorem Step.cutsWithin (h : Step g t g') (hcuts : g.CutsWithin g.current.length) :
    g'.CutsWithin g'.current.length := by
  cases h with
  | skip => exact hcuts
  | cut => exact List.forall_mem_cons.2 ⟨Nat.le_refl _, hcuts⟩
  | stay => exact fun cut hcut => Nat.le_succ_of_le (hcuts cut hcut)
  | brace _ hflush | finish _ _ _ hflush | start _ _ _ _ hflush =>
    obtain ⟨new, rfl, -⟩ := exists_made_of_flush hflush
    exact cutsWithin_of_cuts rfl

/-- However many tokens are gathered, the semicolons that are noted are among them. -/
theorem cutsWithin_of_foldlM (h : ts.foldlM push g = .ok g')
    (hcuts : g.CutsWithin g.current.length) : g'.CutsWithin g'.current.length :=
  run_induction (I := fun g => g.CutsWithin g.current.length) hcuts
    (fun _ _ _ _ hcuts hstep => hstep.cutsWithin hcuts) h

/-- Whether a statement can hold a token together with others: the token takes part in the program,
and neither stands alone nor only ends what is in front of it. -/
def IsInner (t : Token) : Prop :=
  t.isSignificant = true ∧ t.kind ≠ .openBrace ∧ t.kind ≠ .closeBrace ∧ t.kind ≠ .semicolon

/-- Such a token starts a new statement or belongs to the current one. -/
theorem Step.inner (h : Step g t g') (ht : IsInner t) :
    (g.depth = 0 ∧ g.endsBefore t = true ∧ ∃ flushed, g.flush = .ok flushed ∧ g' = flushed.append t) ∨
      ((g.depth = 0 → g.endsBefore t = false) ∧ g' = g.append t) := by
  obtain ⟨hsignificant, hopening, hclosing, hsemicolon⟩ := ht
  cases h with
  | skip ht => exact absurd ht (by simp [hsignificant])
  | brace ht =>
    rcases ht with ⟨-, ht⟩ | ⟨-, ht⟩
    · exact absurd ht hopening
    · exact absurd ht hclosing
  | cut ht => exact absurd ht hsemicolon
  | finish ht => exact absurd ht hsemicolon
  | start _ _ hdepth hends hflush => exact .inl ⟨hdepth, hends, _, hflush, rfl⟩
  | stay _ hstays => exact .inr ⟨fun hzero => (hstays hzero).2, rfl⟩

variable {a b : Token}

/-- Tokens that stand next to each other are in one statement, unless statements meet between
them. -/
theorem exists_mem_of_tokensOf {statements : List Statement} {before after : List Token}
    (h : tokensOf statements = before ++ a :: b :: after)
    (hmeet : ∀ front back, statements = front ++ back → front ≠ [] → back ≠ [] →
      (tokensOf front).length ≠ before.length + 1) :
    ∃ s ∈ statements, a ∈ s.tokens ∧ b ∈ s.tokens := by
  induction statements generalizing before with
  | nil => simp [tokensOf] at h
  | cons s rest ih =>
    have hbehind : ∀ as, before = s.tokens ++ as → tokensOf rest = as ++ a :: b :: after →
        ∃ s' ∈ s :: rest, a ∈ s'.tokens ∧ b ∈ s'.tokens := by
      rintro as rfl hrest
      obtain ⟨s', hs', hboth⟩ := ih hrest fun front back heq hfront hback hlength => by
        refine hmeet (s :: front) back (by rw [heq]; rfl) (by simp) hback ?_
        simp only [tokensOf, List.flatMap_cons, List.length_append] at hlength ⊢
        omega
      exact ⟨s', List.mem_cons_of_mem _ hs', hboth⟩
    rw [tokensOf, List.flatMap_cons, List.append_eq_append_iff] at h
    rcases h with ⟨as, hbefore, hrest⟩ | ⟨_ | ⟨_, _ | ⟨_, bs⟩⟩, hs, hrest⟩
    · exact hbehind as hbefore hrest
    · exact hbehind [] (by simpa using hs.symm) hrest.symm
    · obtain ⟨rfl, hrest⟩ := List.cons.inj hrest
      have hne : rest ≠ [] := by
        rintro rfl
        cases hrest
      exact absurd (by simp [tokensOf, hs]) (hmeet [s] rest rfl (by simp) hne)
    · cases hrest
      exact ⟨s, by simp, by simp [hs], by simp [hs]⟩

/-- Whether two tokens are in one statement, or stand next to each other in the current one with no cut
in between. -/
def Together (a b : Token) (g : Grouping) : Prop :=
  (∃ s ∈ g.made, a ∈ s.tokens ∧ b ∈ s.tokens) ∨
    ∃ later earlier, g.current = later ++ b :: a :: earlier ∧ earlier.length + 1 ∉ g.cuts

/-- Two tokens gathered in one statement are in it when it ends. -/
theorem Together.flush (h : Together a b g) (hflush : g.flush = .ok g') :
    ∃ s ∈ g'.made, a ∈ s.tokens ∧ b ∈ s.tokens := by
  obtain ⟨new, rfl, htokens, hmeet⟩ := exists_made_of_flush hflush
  rcases h with ⟨s, hs, hboth⟩ | ⟨later, earlier, hcurrent, hcut⟩
  · exact ⟨s, Array.mem_append.2 (.inl hs), hboth⟩
  · have hadjacent : tokensOf new = earlier.reverse ++ a :: b :: later.reverse := by
      simp [htokens, hcurrent]
    obtain ⟨s, hs, hboth⟩ := exists_mem_of_tokensOf hadjacent fun front back heq hfront hback hlength => by
      rw [List.length_reverse] at hlength
      exact hcut (hlength ▸ hmeet front back heq hfront hback)
    exact ⟨s, Array.mem_append.2 (.inr (List.mem_toArray.2 hs)), hboth⟩

/-- Tokens that are together stay so, whatever follows. -/
theorem Together.step (h : Together a b g) (hstep : Step g t g') : Together a b g' := by
  cases hstep with
  | skip => exact h
  | brace _ hflush =>
    obtain ⟨s, hs, hboth⟩ := h.flush hflush
    exact .inl ⟨s, Array.mem_push.2 (.inl hs), hboth⟩
  | cut =>
    refine h.imp_right fun ⟨later, earlier, hcurrent, hcut⟩ => ⟨later, earlier, hcurrent, ?_⟩
    rw [List.mem_cons, not_or]
    refine ⟨?_, hcut⟩
    simp only [hcurrent, List.length_append, List.length_cons]
    omega
  | finish _ _ _ hflush | start _ _ _ _ hflush =>
    have hmade := h.flush hflush
    exact .inl hmade
  | stay =>
    exact h.imp_right fun ⟨later, earlier, hcurrent, hcut⟩ =>
      ⟨t :: later, earlier, by rw [append, hcurrent]; rfl, hcut⟩

/-- Two tokens of one statement stay together whatever follows. -/
theorem Together.foldlM (h : Together a b g) (hts : ts.foldlM push g = .ok g') :
    Together a b g' :=
  run_induction h (fun _ _ _ _ h hstep => h.step hstep) hts

/-- Whether two tokens are in no common statement, and the first of them is not in the current one. -/
def Apart (a b : Token) (g : Grouping) : Prop :=
  (∀ s ∈ g.made, a ∈ s.tokens → b ∉ s.tokens) ∧ a ∉ g.current

/-- Two tokens of different statements stay apart when the second ends. -/
theorem Apart.flush (h : Apart a b g) (hflush : g.flush = .ok g') : Apart a b g' := by
  obtain ⟨new, rfl, htokens, -⟩ := exists_made_of_flush hflush
  refine ⟨fun s hs ha => ?_, by simp⟩
  rcases Array.mem_append.1 hs with hs | hs
  · exact h.1 s hs ha
  · have hmem : a ∈ tokensOf new := List.mem_flatMap.2 ⟨s, List.mem_toArray.1 hs, ha⟩
    rw [htokens, List.mem_reverse] at hmem
    exact absurd hmem h.2

/-- Tokens that are apart stay so, unless the first of them follows again. -/
theorem Apart.step (h : Apart a b g) (ht : a ≠ t) (hstep : Step g t g') : Apart a b g' := by
  have happend : ∀ {g : Grouping}, Apart a b g → Apart a b (g.append t) :=
    fun h => ⟨h.1, by simpa [append, ht] using h.2⟩
  cases hstep with
  | skip => exact h
  | cut => exact h
  | brace _ hflush =>
    obtain ⟨hmade, hcurrent⟩ := h.flush hflush
    refine ⟨fun s hs ha => ?_, hcurrent⟩
    rcases Array.mem_push.1 hs with hs | rfl
    · exact hmade s hs ha
    · exact absurd (by simpa [Statement.tokens] using ha) ht
  | finish _ _ _ hflush => exact h.flush hflush
  | start _ _ _ _ hflush => exact happend (h.flush hflush)
  | stay => exact happend h

/-- Two tokens of different statements stay apart whatever follows. -/
theorem Apart.foldlM (h : Apart a b g) (hne : a ∉ ts) (hts : ts.foldlM push g = .ok g') :
    Apart a b g' :=
  run_induction h (fun _ ht _ _ h hstep => h.step (fun heq => hne (heq ▸ ht)) hstep) hts

end Grouping

/-- Statements are made of the tokens that take part in the program. -/
theorem Statement.group_filter {ts : List Token} {statements : List Statement}
    (h : group ts = .ok statements) : group (ts.filter Token.isSignificant) = .ok statements := by
  rw [group, bind_eq_ok_iff] at h ⊢
  obtain ⟨g, hg, hstatements⟩ := h
  exact ⟨g, Grouping.foldlM_filter hg, hstatements⟩

/-- Of two tokens that stand next to each other, the second one is in the statement of the first one
inside brackets, or if it does not start a new statement by its word or by its line. Braces and
semicolons aside, nothing else decides it. -/
theorem Statement.common_iff_of_group {before after : List Token} {a b : Token}
    {statements : List Statement} (h : group (before ++ a :: b :: after) = .ok statements)
    (hnodup : (before ++ a :: b :: after).Nodup) (ha : Grouping.IsInner a) (hb : Grouping.IsInner b)
    (hword : b.kind.startsStatement = false) :
    (∃ s ∈ statements, a ∈ s.tokens ∧ b ∈ s.tokens) ↔
      0 < Token.nesting 0 (before ++ [a]) ∨ b.position.line = a.position.line ∨
        a.kind.continues = true := by
  simp only [group, List.foldlM_append, List.foldlM_cons, bind_eq_ok_iff] at h
  obtain ⟨last, ⟨g₀, hbefore, g₁, hpusha, g₂, hpushb, hafter⟩, flushed, hflushed, heq⟩ := h
  cases heq
  simp only [Array.mem_toList_iff]
  have hrun : (before ++ [a]).foldlM Grouping.push {} = .ok g₁ :=
    Grouping.foldlM_append_eq_ok hbefore (by rw [List.foldlM_cons, hpusha]; rfl)
  have hdepth : g₁.depth = Token.nesting 0 (before ++ [a]) := Grouping.depth_of_foldlM hrun
  have hcuts := Grouping.cutsWithin_of_foldlM hbefore (Grouping.cutsWithin_of_cuts rfl)
  obtain ⟨earlier, hcurrent, hwithin⟩ : ∃ earlier, g₁.current = a :: earlier ∧
      g₁.CutsWithin earlier.length := by
    rcases (Grouping.Step.of_push hpusha).inner ha with ⟨-, -, flushed, hflush, rfl⟩ | ⟨-, rfl⟩
    · obtain ⟨new, rfl, -⟩ := Grouping.exists_made_of_flush hflush
      exact ⟨[], rfl, Grouping.cutsWithin_of_cuts rfl⟩
    · exact ⟨g₀.current, rfl, hcuts⟩
  have hends : g₁.endsBefore b =
      (b.position.line ≠ a.position.line && !a.kind.continues) := by
    rw [Grouping.endsBefore, hcurrent]
    simp [hword]
  rw [List.nodup_append, List.nodup_cons, List.nodup_cons, List.mem_cons, not_or] at hnodup
  obtain ⟨-, ⟨⟨hne, hnotafter⟩, -, -⟩, hdisjoint⟩ := hnodup
  rcases (Grouping.Step.of_push hpushb).inner hb with
    ⟨hzero, hstarts, ended, hflush, rfl⟩ | ⟨hstays, rfl⟩
  · -- The second token starts a statement, and what is made in front of it does not hold it.
    have hheld : ended.Holds (· ∈ before ++ [a]) := by
      have hempty : Grouping.Holds (· ∈ before ++ [a]) {} := ⟨by simp, by simp⟩
      exact (hempty.foldlM (fun _ ht => ht) hrun).flush hflush
    have hnotheld : b ∉ before ++ [a] := by
      rw [List.mem_append, List.mem_singleton, not_or]
      exact ⟨fun hmem => hdisjoint b hmem b (by simp) rfl, Ne.symm hne⟩
    obtain ⟨new, rfl, -⟩ := Grouping.exists_made_of_flush hflush
    have hapart : Grouping.Apart a b (Grouping.append { made := g₁.made ++ new.toArray } b) :=
      ⟨fun s hs _ hmem => hnotheld (hheld.1 s hs b hmem), by simpa [Grouping.append] using hne⟩
    have hlast := (hapart.foldlM hnotafter hafter).flush hflushed
    rw [hends] at hstarts
    simp only [Bool.and_eq_true, decide_eq_true_eq, Bool.not_eq_true'] at hstarts
    refine iff_of_false ?_ ?_
    · rintro ⟨s, hs, hmema, hmemb⟩
      exact hlast.1 s hs hmema hmemb
    · rintro (hpos | hline | hcontinues)
      · omega
      · exact hstarts.1 hline
      · exact absurd hcontinues (by simp [hstarts.2])
  · -- The second token goes on with the statement of the first one, which no cut ends.
    have htogether : Grouping.Together a b (g₁.append b) := by
      refine .inr ⟨[], earlier, by simp [Grouping.append, hcurrent], fun hcut => ?_⟩
      have hle := hwithin _ hcut
      omega
    refine iff_of_true ((htogether.foldlM hafter).flush hflushed) ?_
    by_cases hzero : g₁.depth = 0
    · have hno := hstays hzero
      rw [hends] at hno
      simp only [Bool.and_eq_false_iff, decide_eq_false_iff_not, not_not, Bool.not_eq_false'] at hno
      exact .inr hno
    · exact .inl (by omega)

end Sprout
