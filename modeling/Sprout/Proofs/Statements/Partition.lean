import Sprout.Proofs.Statements.Regrouping

namespace Sprout

/-- The tokens that statements hold, where the first token stands at a bracket depth. Behind a brace
the depth starts over. -/
def Token.stated (depth : Nat) : List Token → List Token
  | [] => []
  | t :: rest =>
    if !t.isSignificant || (t.kind = .semicolon && depth = 0) then stated depth rest
    else if t.kind = .openBrace || t.kind = .closeBrace then t :: stated 0 rest
    else t :: stated (t.kind.depthAfter depth) rest

namespace Grouping

/-- The tokens of the statements made so far and of the current one. -/
def held (g : Grouping) : List Token :=
  tokensOf g.made.toList ++ g.current.reverse

section Held

variable {g g' : Grouping} {t : Token} {ts : List Token}

/-- Ending the current statement keeps every token, and starts outside brackets. A `for` header is
split then, but its clauses are held one behind the other. -/
theorem held_of_flush (h : g.flush = .ok g') :
    g'.held = g.held ∧ g'.current = [] ∧ g'.depth = 0 := by
  obtain ⟨new, rfl, htokens, -⟩ := exists_made_of_flush h
  exact ⟨by simp [held, tokensOf_append, htokens], rfl, rfl⟩

/-- A token that is added is held behind all tokens before it. -/
theorem held_append : (g.append t).held = g.held ++ [t] := by
  simp [held, append]

/-- Taking a token into account keeps it where statements hold it, and nothing else changes. -/
theorem held_of_step (h : Step g t g') :
    g'.held ++ Token.stated g'.depth ts = g.held ++ Token.stated g.depth (t :: ts) := by
  rw [Token.stated]
  cases h with
  | skip ht => rw [if_pos (by simp [ht])]
  | @brace kind flushed ht hflush =>
    obtain ⟨hheld, hcurrent, hdepth⟩ := held_of_flush hflush
    have htokens : tokensOf [⟨kind, t, []⟩] = [t] := rfl
    have hkind : t.kind = .openBrace ∨ t.kind = .closeBrace := ht.imp And.right And.right
    have hkept : ¬ (!t.isSignificant || (t.kind = .semicolon && g.depth = 0)) = true := by
      rcases hkind with hkind | hkind <;> simp [Token.isSignificant, hkind]
    rw [held, hcurrent] at hheld
    rw [if_neg hkept, if_pos (by simpa using hkind), ← hheld]
    simp [held, hcurrent, hdepth, tokensOf_append, htokens]
  | cut ht hdepth =>
    rw [if_pos (by simp [ht, hdepth])]
    rfl
  | finish ht hdepth _ hflush =>
    obtain ⟨hheld, -, hzero⟩ := held_of_flush hflush
    rw [if_pos (by simp [ht, hdepth]), hheld, hzero, hdepth]
  | start ht hkind hdepth _ hflush =>
    obtain ⟨hheld, -, hzero⟩ := held_of_flush hflush
    obtain ⟨hsignificant, hbraces⟩ := kind_of_isOrdinary ht
    rw [if_neg (by simp [hsignificant, hkind]), if_neg (by simpa using hbraces), held_append, hheld,
      hdepth, List.append_assoc]
    change _ ++ t :: Token.stated (t.kind.depthAfter _) ts = _
    rw [hzero]
  | stay ht hstays =>
    obtain ⟨hsignificant, hbraces⟩ := kind_of_isOrdinary ht
    have hkept : ¬ (!t.isSignificant || (t.kind = .semicolon && g.depth = 0)) = true := by
      simpa [hsignificant] using fun hkind hzero => (hstays hzero).1 hkind
    rw [if_neg hkept, if_neg (by simpa using hbraces), held_append, List.append_assoc]
    rfl

/-- All tokens are held in order, besides the semicolons that only separate statements. -/
theorem held_of_foldlM (h : ts.foldlM push g = .ok g') :
    g'.held = g.held ++ Token.stated g.depth ts := by
  induction ts generalizing g with
  | nil =>
    cases h
    simp [Token.stated]
  | cons t ts ih =>
    obtain ⟨next, hnext, h⟩ := bind_eq_ok_iff.1 h
    rw [ih h, held_of_step (.of_push hnext)]

end Held

/-- The statements of a group hold the tokens it was made of that statements can hold. -/
theorem tokensOf_group {ts : List Token} {statements : List Statement}
    (h : Statement.group ts = .ok statements) : tokensOf statements = Token.stated 0 ts := by
  simp only [Statement.group, bind_eq_ok_iff] at h
  obtain ⟨g, hg, flushed, hflushed, heq⟩ := h
  cases heq
  obtain ⟨hheld, hcurrent, -⟩ := held_of_flush hflushed
  have hall := held_of_foldlM hg
  rw [← hheld] at hall
  simpa [held, hcurrent, tokensOf] using hall

/-- Bracket depths start over behind tokens that end outside brackets. -/
theorem depthBehind_append {later earlier : List Token} (h : depthBehind earlier = 0) :
    depthBehind (later ++ earlier) = depthBehind later := by
  induction later with
  | nil => exact h
  | cons t later ih => rw [List.cons_append, depthBehind, depthBehind, ih]

/-- Inside a run that nothing breaks, all tokens are ordinary. -/
theorem isOrdinary_of_unbroken {ts : List Token} (h : Unbroken ts) :
    ∀ t ∈ ts, isOrdinary t = true := by
  induction ts with
  | nil => simp
  | cons t ts ih => exact List.forall_mem_cons.2 ⟨h.1, ih h.2.2⟩

/-- No brace stands in statements that stay together. -/
theorem Joined.ne_brace {statements : List Statement} (h : Joined statements) :
    ∀ s ∈ statements, ∀ t ∈ s.tokens, t.kind ≠ .openBrace ∧ t.kind ≠ .closeBrace := by
  intro s hs t ht
  have hmem : t ∈ (tokensOf statements).reverse :=
    List.mem_reverse.2 (List.mem_flatMap.2 ⟨s, hs, ht⟩)
  exact (kind_of_isOrdinary (isOrdinary_of_unbroken h t hmem)).2

end Grouping

namespace Statement

/-- How a statement stands between those before it and those after it: braces stand alone, and the
clauses of a loop header behind each other. -/
structure Placed (before : List Statement) (s : Statement) (after : List Statement) : Prop where
  opening : (s.kind = .opening ∨ ∃ t ∈ s.tokens, t.kind = .openBrace) →
    s.kind = .opening ∧ s.tokens = [s.lead] ∧ s.lead.kind = .openBrace
  closing : (s.kind = .closing ∨ ∃ t ∈ s.tokens, t.kind = .closeBrace) →
    s.kind = .closing ∧ s.tokens = [s.lead] ∧ s.lead.kind = .closeBrace
  loop : s.kind = .header → s.lead.kind = .keyword .forWord →
    2 ≤ s.tokens.length ∧ ∃ next ∈ after.head?, next.kind = .bound
  bound : s.kind = .bound →
    ∃ previous ∈ before.getLast?, previous.kind = .header ∧ previous.lead.kind = .keyword .forWord
  step : s.kind = .step → ∃ previous ∈ before.getLast?, previous.kind = .bound

section Placed

variable {before after front back : List Statement} {s : Statement}

/-- No brace stands in statements that stay together, so only the clauses are left to place. -/
theorem Placed.of_joined (hjoined : Grouping.Joined (before ++ s :: after))
    (hopening : s.kind ≠ .opening) (hclosing : s.kind ≠ .closing)
    (loop : s.kind = .header → s.lead.kind = .keyword .forWord →
      2 ≤ s.tokens.length ∧ ∃ next ∈ after.head?, next.kind = .bound)
    (bound : s.kind = .bound →
      ∃ previous ∈ before.getLast?, previous.kind = .header ∧
        previous.lead.kind = .keyword .forWord)
    (step : s.kind = .step → ∃ previous ∈ before.getLast?, previous.kind = .bound) :
    Placed before s after := by
  have hbrace := hjoined.ne_brace s (by simp)
  refine ⟨?_, ?_, loop, bound, step⟩
  · rintro (hkind | ⟨t, ht, hkind⟩)
    · exact absurd hkind hopening
    · exact absurd hkind (hbrace t ht).1
  · rintro (hkind | ⟨t, ht, hkind⟩)
    · exact absurd hkind hclosing
    · exact absurd hkind (hbrace t ht).2

/-- A statement of a piece is placed in it, and the statements of the piece before it end outside
brackets. -/
theorem placed_of_piece {piece : List Statement} (hpiece : Grouping.Piece piece)
    (heq : piece = front ++ s :: back) : Placed front s back ∧ Grouping.depthOf front = 0 := by
  cases hpiece with
  | @brace kind t h =>
    obtain ⟨rfl, rfl, rfl⟩ : front = [] ∧ s = ⟨kind, t, []⟩ ∧ back = [] := by
      simpa [List.append_eq_cons_iff, eq_comm] using heq
    refine ⟨?_, rfl⟩
    rcases h with ⟨rfl, ht⟩ | ⟨rfl, ht⟩ <;> constructor <;> simp [tokens, ht]
  | @plain lead rest hlead hjoined =>
    obtain ⟨hopening, hclosing, hbound, hstep⟩ := Grouping.classify_ne lead rest
    obtain ⟨rfl, rfl, rfl⟩ : front = [] ∧ s = ⟨classify lead rest, lead, rest⟩ ∧ back = [] := by
      simpa [List.append_eq_cons_iff, eq_comm] using heq
    exact ⟨.of_joined hjoined hopening hclosing (fun _ h => absurd h hlead)
      (fun h => absurd h hbound) (fun h => absurd h hstep), rfl⟩
  | @loop start bound hkind hlead hrest hbound hjoined hdepth =>
    have hlength : 2 ≤ start.tokens.length := by
      simpa [tokens, Nat.one_le_iff_ne_zero] using hrest
    rw [heq] at hjoined
    rcases front with _ | ⟨_, _ | ⟨_, _⟩⟩
    · cases heq
      exact ⟨.of_joined hjoined (by simp [hkind]) (by simp [hkind])
        (fun _ _ => ⟨hlength, bound, rfl, hbound⟩) (by simp [hkind]) (by simp [hkind]), rfl⟩
    · cases heq
      exact ⟨.of_joined hjoined (by simp [hbound]) (by simp [hbound]) (by simp [hbound])
        (fun _ => ⟨start, rfl, hkind, hlead⟩) (by simp [hbound]), hdepth⟩
    · simp at heq
  | @stepLoop start bound step hkind hlead hrest hbound hstep hjoined hdepth hdepth' =>
    have hlength : 2 ≤ start.tokens.length := by
      simpa [tokens, Nat.one_le_iff_ne_zero] using hrest
    rw [heq] at hjoined
    rcases front with _ | ⟨_, _ | ⟨_, _ | ⟨_, _⟩⟩⟩
    · cases heq
      exact ⟨.of_joined hjoined (by simp [hkind]) (by simp [hkind])
        (fun _ _ => ⟨hlength, bound, rfl, hbound⟩) (by simp [hkind]) (by simp [hkind]), rfl⟩
    · cases heq
      exact ⟨.of_joined hjoined (by simp [hbound]) (by simp [hbound]) (by simp [hbound])
        (fun _ => ⟨start, rfl, hkind, hlead⟩) (by simp [hbound]), hdepth⟩
    · cases heq
      exact ⟨.of_joined hjoined (by simp [hstep]) (by simp [hstep]) (by simp [hstep])
        (by simp [hstep]) (fun _ => ⟨bound, rfl, hbound⟩), hdepth'⟩
    · simp at heq

/-- A statement stands in one of the pieces that statements come in. -/
theorem exists_piece {pieces : List (List Statement)}
    (h : pieces.flatten = before ++ s :: after) :
    ∃ earlier front back later, pieces = earlier ++ (front ++ s :: back) :: later ∧
      before = earlier.flatten ++ front ∧ after = back ++ later.flatten := by
  rcases List.flatten_eq_append_iff.1 h with
    ⟨earlier, rest, rfl, rfl, hrest⟩ | ⟨earlier, front, _, back, later, rfl, rfl, hrest⟩
  · obtain ⟨empty, back, later, rfl, hempty, rfl⟩ := List.flatten_eq_cons_iff.1 hrest.symm
    have hnone : empty.flatten = [] := List.flatten_eq_nil_iff.2 hempty
    exact ⟨earlier ++ empty, [], back, later, by simp, by simp [hnone], rfl⟩
  · cases hrest
    exact ⟨earlier, front, back, later, rfl, rfl, rfl⟩

variable {ts : List Token}

/-- Every statement stands where its tokens do. -/
theorem placed_of_group (h : group ts = .ok (before ++ s :: after)) : Placed before s after := by
  obtain ⟨pieces, hflatten, hpieces, -⟩ := pieces_of_group h
  obtain ⟨earlier, front, back, later, rfl, rfl, rfl⟩ := exists_piece hflatten.symm
  obtain ⟨hplaced, -⟩ := placed_of_piece (hpieces (front ++ s :: back) (by simp)) rfl
  refine { hplaced with loop := fun hkind hlead => ?_, bound := fun hkind => ?_,
                        step := fun hkind => ?_ }
  · obtain ⟨hlength, next, hnext, hbound⟩ := hplaced.loop hkind hlead
    exact ⟨hlength, next, List.mem_head?_append_of_mem_head? hnext, hbound⟩
  · obtain ⟨previous, hprevious, hheader⟩ := hplaced.bound hkind
    exact ⟨previous, List.mem_getLast?_append_of_mem_getLast? hprevious, hheader⟩
  · obtain ⟨previous, hprevious, hbound⟩ := hplaced.step hkind
    exact ⟨previous, List.mem_getLast?_append_of_mem_getLast? hprevious, hbound⟩

/-- A statement that anything but a brace follows ends outside brackets, for only a brace ends a
statement inside them. -/
theorem depthBehind_of_group {next : Statement} (h : group ts = .ok (before ++ s :: next :: after))
    (hopening : next.kind ≠ .opening) (hclosing : next.kind ≠ .closing) :
    Grouping.depthBehind s.tokens.reverse = 0 := by
  obtain ⟨pieces, hflatten, hpieces, hparted, -⟩ := pieces_of_group h
  obtain ⟨earlier, front, back, later, rfl, rfl, hafter⟩ := exists_piece hflatten.symm
  have hpiece := hpieces (front ++ s :: back) (by simp)
  have hfront := (placed_of_piece hpiece rfl).2
  have hbehind : Grouping.depthOf (front ++ [s]) = 0 := by
    cases back with
    | cons inner back =>
      have hsame : front ++ s :: inner :: back = front ++ [s] ++ inner :: back := by simp
      exact (placed_of_piece hpiece hsame).2
    | nil =>
      -- The piece ends with the statement, and the next piece starts with the next one.
      cases later with
      | nil => cases hafter
      | cons piece later =>
        obtain ⟨first, others, rfl, -⟩ := (hpieces piece (by simp)).eq_cons
        cases hafter
        have hpair : Grouping.Parted (front ++ [s]) (next :: others) :=
          (List.isChain_cons_cons.1 (List.isChain_append.1 hparted).2.1).1
        exact hpair.resolve_left (Grouping.not_startsWithBrace hopening hclosing)
  have htokens : (Grouping.tokensOf (front ++ [s])).reverse =
      s.tokens.reverse ++ (Grouping.tokensOf front).reverse := by simp [Grouping.tokensOf]
  rw [Grouping.depthOf, htokens, Grouping.depthBehind_append hfront] at hbehind
  exact hbehind

/-- Grouping loses, doubles and moves nothing. The statements hold their tokens one behind the other,
where the bracket depth behind the last brace is that behind the start of the statement, since
statements end outside brackets unless a brace ends them. -/
theorem group_partition {statements : List Statement} (h : group ts = .ok statements) :
    Grouping.tokensOf statements = Token.stated 0 ts ∧ (∀ s ∈ statements, s.tokens ≠ []) ∧
      (∀ before s next after, statements = before ++ s :: next :: after → next.kind ≠ .opening →
        next.kind ≠ .closing → Grouping.depthBehind s.tokens.reverse = 0) ∧
      ∀ before s after, statements = before ++ s :: after → Placed before s after := by
  refine ⟨Grouping.tokensOf_group h, fun s _ => List.cons_ne_nil _ _, ?_, ?_⟩
  · rintro before s next after rfl
    exact depthBehind_of_group h
  · rintro before s after rfl
    exact placed_of_group h

end Placed

end Statement

/-- Semicolons inside and outside brackets, a brace inside brackets, and a bracket that closes
nothing. -/
private def strayBrackets : Source :=
  ⟨"brackets", "for i=0;f(a;b);i++{x=(};]y;; // end"⟩

/-- The bracket that is closed without being opened and the one that is never closed stay in their
statements. -/
theorem strayBrackets_partition :
    ∃ ts statements, strayBrackets.tokens = .ok ts ∧ Statement.group ts = .ok statements ∧
      statements.map (·.tokens.length) = [4, 6, 2, 1, 3, 1, 2] ∧
      Grouping.tokensOf statements = Token.stated 0 ts ∧ (∀ s ∈ statements, s.tokens ≠ []) ∧
      (∀ before s next after, statements = before ++ s :: next :: after → next.kind ≠ .opening →
        next.kind ≠ .closing → Grouping.depthBehind s.tokens.reverse = 0) ∧
      ∀ before s after, statements = before ++ s :: after →
        Statement.Placed before s after := by
  have hseen : (do
      let ts ← strayBrackets.tokens.toOption
      let statements ← (Statement.group ts).toOption
      some (statements.map (·.tokens.length))) = some [4, 6, 2, 1, 3, 1, 2] := by decide +kernel
  simp only [Option.bind_eq_bind, Option.bind_eq_some_iff] at hseen
  obtain ⟨ts, htokens, statements, hgroup, hlengths⟩ := hseen
  have hgrouped := eq_ok_of_toOption hgroup
  exact ⟨ts, statements, eq_ok_of_toOption htokens, hgrouped, Option.some.inj hlengths,
    Statement.group_partition hgrouped⟩

end Sprout
