import Sprout.Proofs.Lexing.Layout
import Sprout.Proofs.Statements.Pieces

namespace Sprout.Grouping

variable {ts us : List Token} {g g' : Grouping} {t : Token} {piece next : List Statement}

/-- An ordinary token that ends no statement is added to the one gathered so far. -/
theorem push_ordinary (hordinary : isOrdinary t = true)
    (hstays : g.depth = 0 → t.kind ≠ .semicolon ∧ g.endsBefore t = false) :
    g.push t = .ok (g.append t) := by
  simp only [isOrdinary, List.mem_cons, List.not_mem_nil, or_false, decide_eq_true_eq, not_or]
    at hordinary
  obtain ⟨heof, hcomment, hunknown, hopening, hclosing⟩ := hordinary
  have hcut : (t.kind = .semicolon && g.depth = 0) = false := by
    rw [Bool.and_eq_false_iff, decide_eq_false_iff_not, decide_eq_false_iff_not]
    by_cases hzero : g.depth = 0
    · exact .inl (hstays hzero).1
    · exact .inr hzero
  have hends : (g.depth = 0 && g.endsBefore t) = false := by
    rw [Bool.and_eq_false_iff, decide_eq_false_iff_not]
    by_cases hzero : g.depth = 0
    · exact .inr (hstays hzero).2
    · exact .inl hzero
  unfold push
  split
  · exact absurd ‹_› heof
  · exact absurd ‹_› hcomment
  · exact absurd ‹_› hunknown
  · exact absurd ‹_› hopening
  · exact absurd ‹_› hclosing
  · rw [if_neg (by simp [hcut]), if_neg (by simp [hends])]

/-- A run that nothing breaks is broken nowhere in its first part. -/
theorem Unbroken.earlier {later earlier : List Token} (h : Unbroken (later ++ earlier)) :
    Unbroken earlier := by
  induction later with
  | nil => exact h
  | cons t later ih => exact ih h.2.2

/-- Tokens are added in two runs, one behind the other. -/
theorem foldlM_append_eq_ok {g₁ g₂ : Grouping} (h : ts.foldlM push g = .ok g₁)
    (h' : us.foldlM push g₁ = .ok g₂) : (ts ++ us).foldlM push g = .ok g₂ := by
  rw [List.foldlM_append, h]
  exact h'

/-- The state inside a statement, of which the tokens `current` are known, the latest in front. -/
def inside (made : Array Statement) (current : List Token) (cuts : List Nat) : Grouping :=
  ⟨made, current, depthBehind current, cuts⟩

variable {made : Array Statement} {current : List Token} {cuts : List Nat}

/-- What ends nothing is added, token by token. -/
theorem foldlM_unbroken (hunbroken : Unbroken (ts.reverse ++ current)) :
    ts.foldlM push (inside made current cuts) =
      .ok (inside made (ts.reverse ++ current) cuts) := by
  induction ts generalizing current with
  | nil => rfl
  | cons t ts ih =>
    rw [List.reverse_cons, List.append_assoc, List.singleton_append] at hunbroken ⊢
    obtain ⟨hordinary, hstays, -⟩ := hunbroken.earlier
    have hpush : (inside made current cuts).push t = .ok (inside made (t :: current) cuts) :=
      push_ordinary hordinary hstays
    rw [List.foldlM_cons, hpush]
    exact ih hunbroken

/-- A run that nothing breaks is gathered as a whole. -/
theorem foldlM_first (made : Array Statement) (hunbroken : Unbroken ts.reverse) :
    ts.foldlM push { made } = .ok (inside made ts.reverse []) := by
  have hall : ts.foldlM push (inside made [] []) = .ok (inside made (ts.reverse ++ []) []) :=
    foldlM_unbroken (by rwa [List.append_nil])
  rwa [List.append_nil] at hall

/-- A semicolon cuts a loop header, and a further clause follows. -/
theorem foldlM_clause (ht : t.kind = .semicolon) (hunbroken : Unbroken (us.reverse ++ current))
    (hdepth : depthBehind current = 0)
    (hheader : current.getLast?.any (·.kind = .keyword .forWord) = true) :
    (t :: us).foldlM push (inside made current cuts) =
      .ok (inside made (us.reverse ++ current) (current.length :: cuts)) := by
  have hpush : (inside made current cuts).push t =
      .ok (inside made current (current.length :: cuts)) := by
    unfold push
    simp [ht, inside, hdepth, inForHeader, hheader]
  rw [List.foldlM_cons, hpush]
  exact foldlM_unbroken hunbroken

/-- `Marked statements ts`: the run `ts` holds the tokens of the statements, with a semicolon in
front of each clause of a loop header. -/
inductive Marked : List Statement → List Token → Prop
  | nil : Marked [] []
  | plain {s rest ts} (hnext : rest.head?.any Statement.isClause = false) (h : Marked rest ts) :
      Marked (s :: rest) (s.tokens ++ ts)
  | clause {s rest t ts} (hnext : rest.head?.any Statement.isClause = true)
      (ht : t.kind = .semicolon) (h : Marked rest ts) : Marked (s :: rest) (s.tokens ++ t :: ts)

/-- Statements and the marks between them are cut where a new piece starts, by induction on the
statements in front. No mark stands there, since marks stand in front of clauses only. -/
theorem Marked.split {before after : List Statement} (h : Marked (before ++ after) ts)
    (hafter : after.head?.any Statement.isClause = false) :
    ∃ us vs, ts = us ++ vs ∧ Marked before us ∧ Marked after vs := by
  induction before generalizing ts with
  | nil => exact ⟨[], ts, rfl, .nil, h⟩
  | cons s before ih =>
    have hhead : before = [] ∨ (before ++ after).head? = before.head? := by
      cases before with
      | nil => exact .inl rfl
      | cons => exact .inr rfl
    rw [List.cons_append] at h
    cases h with
    | plain hnext h =>
      obtain ⟨us, vs, rfl, hbefore, hvs⟩ := ih h
      refine ⟨s.tokens ++ us, vs, by simp, .plain ?_ hbefore, hvs⟩
      rcases hhead with rfl | hhead
      · rfl
      · rwa [hhead] at hnext
    | clause hnext ht h =>
      obtain ⟨us, vs, rfl, hbefore, hvs⟩ := ih h
      refine ⟨s.tokens ++ _ :: us, vs, by simp, .clause ?_ ht hbefore, hvs⟩
      rcases hhead with rfl | hhead
      · rw [List.nil_append, hafter] at hnext
        cases hnext
      · rwa [hhead] at hnext

variable {start bound step : Statement}

/-- A clause is made of its own tokens. -/
theorem clause_tokens (header : Token) (s : Statement) :
    Statement.clause header s.kind s.tokens = .ok s := rfl

/-- The first clause of a loop header, behind the word that it starts with. -/
theorem clause_start (hkind : start.kind = .header) (hrest : start.rest ≠ []) :
    ∃ first, Statement.clause start.lead .header start.rest = .ok first ∧
      (⟨.header, start.lead, first.tokens⟩ : Statement) = start := by
  obtain ⟨kind, lead, rest⟩ := start
  obtain ⟨t, rest, rfl⟩ := List.exists_cons_of_ne_nil hrest
  cases hkind
  exact ⟨⟨.header, t, rest⟩, rfl, rfl⟩

/-- The clauses of a loop header come back from their tokens. -/
theorem forHeader_loop (hkind : start.kind = .header) (hrest : start.rest ≠ [])
    (hbound : bound.kind = .bound) :
    Statement.forHeader start.lead (start.rest ++ bound.tokens) [start.tokens.length] =
      .ok [start, bound] := by
  obtain ⟨first, hfirst, heq⟩ := clause_start hkind hrest
  have hclause := clause_tokens start.lead bound
  have hlength : start.tokens.length - 1 = start.rest.length := rfl
  rw [hbound] at hclause
  simp only [Statement.forHeader, hlength, List.take_left, List.drop_left, bind_eq_ok_iff]
  exact ⟨first, hfirst, bound, hclause, by rw [heq]⟩

/-- A `for` header with a bound and a step is cut at its two semicolons. -/
theorem forHeader_stepLoop (hkind : start.kind = .header) (hrest : start.rest ≠ [])
    (hbound : bound.kind = .bound) (hstep : step.kind = .step) :
    Statement.forHeader start.lead (start.rest ++ (bound.tokens ++ step.tokens))
        [start.tokens.length, start.tokens.length + bound.tokens.length] =
      .ok [start, bound, step] := by
  obtain ⟨first, hfirst, heq⟩ := clause_start hkind hrest
  have hclause := clause_tokens start.lead bound
  have hclause' := clause_tokens start.lead step
  have hlength : start.tokens.length - 1 = start.rest.length := rfl
  have hlength' : start.tokens.length + bound.tokens.length - 1 =
      start.rest.length + bound.tokens.length := by
    simp only [Statement.tokens, List.length_cons]
    omega
  rw [hbound] at hclause
  rw [hstep] at hclause'
  simp only [Statement.forHeader, hlength, hlength', Nat.add_sub_cancel_left, List.take_left,
    List.drop_left, ← List.drop_drop, bind_eq_ok_iff]
  exact ⟨first, hfirst, bound, hclause, step, hclause', by rw [heq]⟩

/-- A `for` header that has been gathered is cut into its clauses. -/
theorem flush_forHeader {made : Array Statement} {lead : Token} {rest : List Token} {depth : Nat}
    {cuts : List Nat} {clauses : List Statement} (hlead : lead.kind = .keyword .forWord)
    (h : Statement.forHeader lead rest cuts.reverse = .ok clauses) :
    flush ⟨made, (lead :: rest).reverse, depth, cuts⟩ =
      .ok { made := made ++ clauses.toArray } := by
  unfold flush
  rw [List.reverse_reverse]
  simp only [hlead, if_true, h]
  rfl

/-- A piece that does not start with a brace starts with another statement. -/
theorem not_startsWithBrace {s : Statement} {others : List Statement}
    (hopening : s.kind ≠ .opening) (hclosing : s.kind ≠ .closing) :
    ¬ startsWithBrace (s :: others) := by
  rintro ⟨s', hs', hkind⟩
  cases hs'
  rcases hkind with hkind | hkind
  · exact hopening hkind
  · exact hclosing hkind

/-- The tokens of a piece make its statements, at the latest when something ends them. -/
theorem Piece.foldlM (hpiece : Piece piece) (hmarked : Marked piece ts) (made : Array Statement) :
    ∃ g, ts.foldlM push { made } = .ok g ∧ g.flush = .ok { made := made ++ piece.toArray } ∧
      (g = { made := made ++ piece.toArray } ∨ ¬ startsWithBrace piece ∧
        g.current = (tokensOf piece).reverse ∧ g.depth = depthOf piece) := by
  have hlast : ∀ {s : Statement} {ts}, Marked [s] ts → ts = s.tokens := by
    rintro s ts (hmarked | hmarked)
    · cases ‹Marked [] _›
      simp
    · contradiction
  have hnext : ∀ {s s' : Statement} {rest ts}, s'.kind = .bound ∨ s'.kind = .step →
      Marked (s :: s' :: rest) ts →
        ∃ t us, ts = s.tokens ++ t :: us ∧ t.kind = .semicolon ∧ Marked (s' :: rest) us := by
    rintro s s' rest ts hkind hmarked
    have hclause : s'.isClause = true := by
      rcases hkind with hkind | hkind <;> simp [Statement.isClause, hkind]
    cases hmarked with
    | plain hnext => simp [hclause] at hnext
    | clause hnext ht h => exact ⟨_, _, rfl, ht, h⟩
  cases hpiece with
  | @brace kind t h =>
    rw [hlast hmarked]
    refine ⟨{ made := made.push ⟨kind, t, []⟩ }, ?_, by simp [flush], .inl (by simp)⟩
    rcases h with ⟨rfl, ht⟩ | ⟨rfl, ht⟩ <;>
      simp only [Statement.tokens, List.foldlM_cons, List.foldlM_nil, push, ht] <;> rfl
  | @plain lead rest hlead hjoined =>
    have htokens : tokensOf [⟨Statement.classify lead rest, lead, rest⟩] = lead :: rest := by
      simp [tokensOf, Statement.tokens]
    rw [Joined, htokens] at hjoined
    obtain ⟨hopening, hclosing, -⟩ := classify_ne lead rest
    refine ⟨inside made (lead :: rest).reverse [], ?_, by simp [inside, flush, hlead],
      .inr ⟨not_startsWithBrace hopening hclosing, by rw [htokens]; rfl,
        by rw [depthOf, htokens]; rfl⟩⟩
    rw [hlast hmarked]
    exact foldlM_first made hjoined
  | @loop start bound hkind hlead hrest hbound hjoined hdepth =>
    obtain ⟨t, us, rfl, ht, hmarked⟩ := hnext (.inl hbound) hmarked
    have htokens : (tokensOf [start, bound]).reverse =
        bound.tokens.reverse ++ start.tokens.reverse := by simp [tokensOf]
    have hstart : (tokensOf [start]).reverse = start.tokens.reverse := by simp [tokensOf]
    rw [Joined, htokens] at hjoined
    rw [depthOf, hstart] at hdepth
    have hclause : (t :: bound.tokens).foldlM push (inside made start.tokens.reverse []) = _ :=
      foldlM_clause ht hjoined hdepth (by simp [Statement.tokens, hlead])
    rw [List.length_reverse] at hclause
    refine ⟨inside made (bound.tokens.reverse ++ start.tokens.reverse) [start.tokens.length],
      ?_, ?_, .inr ⟨not_startsWithBrace (by simp [hkind]) (by simp [hkind]), htokens.symm,
        by rw [depthOf, htokens]; rfl⟩⟩
    · rw [hlast hmarked]
      exact foldlM_append_eq_ok (foldlM_first made hjoined.earlier) hclause
    · rw [← List.reverse_append]
      exact flush_forHeader hlead (forHeader_loop hkind hrest hbound)
  | @stepLoop start bound step hkind hlead hrest hbound hstep hjoined hdepth hdepth' =>
    obtain ⟨t, us, rfl, ht, hmarked⟩ := hnext (.inl hbound) hmarked
    obtain ⟨t', us, rfl, ht', hmarked⟩ := hnext (.inr hstep) hmarked
    have htokens : (tokensOf [start, bound, step]).reverse =
        step.tokens.reverse ++ (bound.tokens.reverse ++ start.tokens.reverse) := by
      simp [tokensOf]
    have hbounded : (tokensOf [start, bound]).reverse =
        bound.tokens.reverse ++ start.tokens.reverse := by simp [tokensOf]
    have hstart : (tokensOf [start]).reverse = start.tokens.reverse := by simp [tokensOf]
    rw [Joined, htokens] at hjoined
    rw [depthOf, hstart] at hdepth
    rw [depthOf, hbounded] at hdepth'
    have hclause : (t :: bound.tokens).foldlM push (inside made start.tokens.reverse []) = _ :=
      foldlM_clause ht hjoined.earlier hdepth (by simp [Statement.tokens, hlead])
    have hheader : (bound.tokens.reverse ++ start.tokens.reverse).getLast? = some start.lead := by
      rw [← List.reverse_append, List.getLast?_reverse]
      rfl
    -- The second semicolon cuts only because the statement still starts with the word of the
    -- header.
    have hclause' : (t' :: step.tokens).foldlM push (inside made
        (bound.tokens.reverse ++ start.tokens.reverse) [start.tokens.length]) = _ :=
      foldlM_clause ht' hjoined hdepth' (by simp [hheader, hlead])
    rw [List.length_reverse] at hclause
    rw [← List.reverse_append, List.length_reverse, List.length_append] at hclause'
    refine ⟨inside made (step.tokens.reverse ++ (bound.tokens.reverse ++ start.tokens.reverse))
        [start.tokens.length + bound.tokens.length, start.tokens.length],
      ?_, ?_, .inr ⟨not_startsWithBrace (by simp [hkind]) (by simp [hkind]), htokens.symm,
        by rw [depthOf, htokens]; rfl⟩⟩
    · rw [hlast hmarked]
      refine foldlM_append_eq_ok (foldlM_first made hjoined.earlier.earlier) ?_
      rw [← List.cons_append]
      refine foldlM_append_eq_ok hclause ?_
      rw [← List.reverse_append]
      exact hclause'
    · rw [← List.reverse_append, ← List.reverse_append, List.append_assoc]
      exact flush_forHeader hlead (forHeader_stepLoop hkind hrest hbound hstep)

/-- Whether something ends a piece before the next one. -/
def Separated (piece next : List Statement) : Prop :=
  startsWithBrace next ∨ startsWithBrace piece ∨
    depthOf piece = 0 ∧
      ∀ s ∈ next.head?, endsBefore { current := (tokensOf piece).reverse } s.lead = true

/-- A piece that starts with a brace is that brace. -/
theorem Piece.eq_of_startsWithBrace (hpiece : Piece piece) (hbrace : startsWithBrace piece) :
    ∃ kind t, piece = [⟨kind, t, []⟩] ∧ IsBrace kind t := by
  obtain ⟨s, hs, hkind⟩ := hbrace
  cases hpiece with
  | brace h => exact ⟨_, _, rfl, h⟩
  | @plain lead rest =>
    obtain ⟨hopening, hclosing, -⟩ := classify_ne lead rest
    exact absurd ⟨s, hs, hkind⟩ (not_startsWithBrace hopening hclosing)
  | loop hheader =>
    cases hs
    simp [hheader] at hkind
  | stepLoop hheader =>
    cases hs
    simp [hheader] at hkind

/-- Every other piece starts with a token that is added to it. -/
theorem Piece.lead_of_not_brace {s : Statement} {others : List Statement}
    (hpiece : Piece (s :: others)) (hbrace : ¬ startsWithBrace (s :: others)) :
    isOrdinary s.lead = true ∧ s.lead.kind ≠ .semicolon := by
  have hjoined : Joined (s :: others) := by
    cases hpiece with
    | brace h =>
      refine absurd ⟨_, rfl, ?_⟩ hbrace
      rcases h with ⟨rfl, -⟩ | ⟨rfl, -⟩ <;> simp
    | plain _ hjoined => exact hjoined
    | loop _ _ _ _ hjoined => exact hjoined
    | stepLoop _ _ _ _ _ hjoined => exact hjoined
  have htokens : (tokensOf (s :: others)).reverse =
      (s.rest ++ tokensOf others).reverse ++ [s.lead] := by
    simp [tokensOf, Statement.tokens]
  rw [Joined, htokens] at hjoined
  obtain ⟨hordinary, hstays, -⟩ := hjoined.earlier
  exact ⟨hordinary, (hstays rfl).1⟩

/-- Where the first token of the next piece ends a piece, that could have ended before. -/
theorem push_of_separated {made : Array Statement} {s : Statement} {others : List Statement}
    (hnext : Piece (s :: others)) (hflush : g.flush = .ok { made })
    (hends : startsWithBrace (s :: others) ∨ g.depth = 0 ∧ g.endsBefore s.lead = true) :
    g.push s.lead = push { made } s.lead := by
  by_cases hbrace : startsWithBrace (s :: others)
  · obtain ⟨kind, t, heq, hkind⟩ := hnext.eq_of_startsWithBrace hbrace
    cases heq
    have hmade : flush { made } = .ok { made } := rfl
    rcases hkind with ⟨rfl, ht⟩ | ⟨rfl, ht⟩ <;>
      simp only [push, ht, Grouping.brace, hflush, hmade]
  · obtain ⟨hordinary, hsemicolon⟩ := hnext.lead_of_not_brace hbrace
    obtain ⟨hdepth, hends⟩ := hends.resolve_left hbrace
    rw [push_ordinary (g := { made }) hordinary fun _ => ⟨hsemicolon, rfl⟩]
    simp only [isOrdinary, List.mem_cons, List.not_mem_nil, or_false, decide_eq_true_eq, not_or]
      at hordinary
    obtain ⟨heof, hcomment, hunknown, hopening, hclosing⟩ := hordinary
    unfold push
    split
    · exact absurd ‹_› heof
    · exact absurd ‹_› hcomment
    · exact absurd ‹_› hunknown
    · exact absurd ‹_› hopening
    · exact absurd ‹_› hclosing
    · rw [if_neg (by simp [hsemicolon]), if_pos (by simp [hdepth, hends]), hflush]
      rfl

/-- The first token of a program is that of its first statement. -/
theorem Marked.eq_cons {s : Statement} {rest : List Statement} (h : Marked (s :: rest) ts) :
    ∃ more, ts = s.lead :: more := by
  cases h with
  | plain => exact ⟨_, rfl⟩
  | clause => exact ⟨_, rfl⟩

/-- A piece is not empty and does not start with a clause. -/
theorem Piece.eq_cons (h : Piece piece) :
    ∃ s others, piece = s :: others ∧ s.isClause = false := by
  cases h with
  | brace h =>
    refine ⟨_, _, rfl, ?_⟩
    rcases h with ⟨rfl, -⟩ | ⟨rfl, -⟩ <;> rfl
  | @plain lead rest =>
    obtain ⟨-, -, hbound, hstep⟩ := classify_ne lead rest
    exact ⟨_, _, rfl, by simp [Statement.isClause, hbound, hstep]⟩
  | loop hkind => exact ⟨_, _, rfl, by simp [Statement.isClause, hkind]⟩
  | stepLoop hkind => exact ⟨_, _, rfl, by simp [Statement.isClause, hkind]⟩

/-- The tokens of pieces make the statements of the pieces, if each one ends before the next. This
is the converse of cutting: by induction on the pieces, the state behind each is that in front of
the next. -/
theorem foldlM_of_pieces {pieces : List (List Statement)} (hpieces : ∀ piece ∈ pieces, Piece piece)
    (hseparated : pieces.IsChain Separated) (hmarked : Marked pieces.flatten ts)
    (made : Array Statement) :
    ts.foldlM push { made } >>= flush = .ok { made := made ++ pieces.flatten.toArray } := by
  induction pieces generalizing ts made with
  | nil =>
    cases hmarked
    simp [flush, bind, Except.bind, pure, Except.pure]
  | cons piece pieces ih =>
    rw [List.forall_mem_cons] at hpieces
    obtain ⟨hpiece, hpieces⟩ := hpieces
    rw [List.isChain_cons] at hseparated
    obtain ⟨hends, hseparated⟩ := hseparated
    have hclause : pieces.flatten.head?.any Statement.isClause = false := by
      cases pieces with
      | nil => rfl
      | cons next pieces =>
        obtain ⟨s, others, rfl, hs⟩ := (hpieces next (by simp)).eq_cons
        simpa using hs
    rw [List.flatten_cons] at hmarked
    obtain ⟨us, vs, rfl, hus, hvs⟩ := hmarked.split hclause
    obtain ⟨g, hg, hflush, hstate⟩ := hpiece.foldlM hus made
    have hrest := ih hpieces hseparated hvs (made ++ piece.toArray)
    have hsame : vs.foldlM push g >>= flush =
        vs.foldlM push { made := made ++ piece.toArray } >>= flush := by
      cases pieces with
      | nil =>
        cases hvs
        exact hflush
      | cons next pieces =>
        obtain ⟨s, others, rfl, -⟩ := (hpieces next (by simp)).eq_cons
        rw [List.flatten_cons, List.cons_append] at hvs
        obtain ⟨more, rfl⟩ := hvs.eq_cons
        -- The first token of the next piece ends this one, so it does as if the statements had been
        -- made.
        have hpush : g.push s.lead = push { made := made ++ piece.toArray } s.lead := by
          rcases hstate with rfl | ⟨hnot, hcurrent, hdepth⟩
          · rfl
          · refine push_of_separated (hpieces (s :: others) (by simp)) hflush ?_
            rcases hends _ rfl with hbrace | hbrace | ⟨hzero, hlead⟩
            · exact .inl hbrace
            · exact absurd hbrace hnot
            · refine .inr ⟨by rw [hdepth, hzero], ?_⟩
              have hlead := hlead s rfl
              unfold endsBefore at hlead ⊢
              rwa [hcurrent]
        rw [List.foldlM_cons, List.foldlM_cons, hpush]
    rw [List.foldlM_append, hg]
    change vs.foldlM push g >>= flush = _
    rw [hsame, hrest]
    simp

end Sprout.Grouping

/-- The tokens of the pieces of a program are cut into the same statements again. -/
theorem Sprout.Statement.group_of_pieces {ts : List Token} {pieces : List (List Statement)}
    (hpieces : ∀ piece ∈ pieces, Grouping.Piece piece)
    (hseparated : pieces.IsChain Grouping.Separated)
    (hmarked : Grouping.Marked pieces.flatten ts) : group ts = .ok pieces.flatten := by
  have hall := Grouping.foldlM_of_pieces hpieces hseparated hmarked #[]
  obtain ⟨g, hg, hflush⟩ := bind_eq_ok_iff.1 hall
  simp only [group, bind_eq_ok_iff]
  exact ⟨g, hg, _, hflush, by simp⟩
