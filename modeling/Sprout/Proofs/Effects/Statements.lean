import Sprout.Proofs.Effects.Lines
import Sprout.Proofs.Lexing.Lexemes
import Sprout.Proofs.Parsing.Completeness
import Sprout.Proofs.Statements.Pieces

namespace Sprout

namespace Token

variable {c : Char} {rest : List Char} {op : Arithmetic} {length : Nat}

/-- The mark of a compound assignment is an operator and an equal sign. -/
theorem mark_compound (h : mark c rest = .ok (.compound op, length)) :
    length = 1 ∧ rest.head? = some '=' ∧ String.ofList [c, '='] = op.symbol ++ "=" := by
  unfold mark at h
  split at h
  · rename_i kind hkind
    cases h
    obtain ⟨d, hd, hpair⟩ := Option.bind_eq_some_iff.1 hkind
    unfold pairKind at hpair
    split at hpair <;> cases hpair <;> exact ⟨rfl, hd, rfl⟩
  · split at h
    · rename_i kind hkind
      cases h
      unfold markKind at hkind
      split at hkind <;> cases hkind
    · cases h

/-- A compound operator is written as its operator and an equal sign. -/
theorem Standalone.lexeme_of_compound {t : Token} (h : t.Standalone) (hkind : t.kind = .compound op) :
    t.lexeme = op.symbol ++ "=" := by
  obtain ⟨c, more, hlexeme, -, hfront⟩ := h
  have hmark := hfront [] .nil
  rw [List.append_nil, hkind] at hmark
  obtain ⟨hlength, hhead, hsymbol⟩ := mark_compound (mark_of_front rfl hmark)
  obtain ⟨d, rfl⟩ := List.length_eq_one_iff.1 hlength
  cases hhead
  rw [hlexeme, hsymbol]

/-- A token of a run is a comma or stands in one of the pieces between commas. -/
theorem mem_pieces {t : Token} {run : List Token} (depth : Nat) (h : t ∈ run) :
    t.kind = .comma ∨ ∃ piece ∈ pieces depth run, t ∈ piece := by
  induction run generalizing depth with
  | nil => cases h
  | cons first run ih =>
    rw [pieces]
    split
    · rename_i hcomma
      simp only [Bool.and_eq_true, decide_eq_true_eq] at hcomma
      rcases List.mem_cons.1 h with rfl | h
      · exact .inl hcomma.1
      · refine (ih 0 h).imp_right ?_
        rintro ⟨piece, hpiece, ht⟩
        exact ⟨piece, List.mem_cons_of_mem _ hpiece, ht⟩
    · rcases List.mem_cons.1 h with rfl | h
      · refine .inr ?_
        split <;> simp
      · refine (ih (first.kind.depthAfter depth) h).imp_right ?_
        rintro ⟨piece, hpiece, ht⟩
        split
        · rename_i hnil
          rw [hnil] at hpiece
          cases hpiece
        · rename_i head others hcons
          rw [hcons] at hpiece
          rcases List.mem_cons.1 hpiece with rfl | hpiece
          · exact ⟨_, List.mem_cons_self .., List.mem_cons_of_mem _ ht⟩
          · exact ⟨piece, List.mem_cons_of_mem _ hpiece, ht⟩

end Token

/-- The names of a declaration are the single tokens between its commas. -/
theorem Declaration.pieces_of_readNames {keyword : Token} {pieces : List (List Token)}
    {names : List Token} (h : readNames keyword pieces = .ok names) :
    pieces = names.map ([·]) ∧ ∀ name ∈ names, name.kind = .identifier := by
  induction pieces generalizing names with
  | nil =>
    cases h
    simp
  | cons piece pieces ih =>
    unfold readNames at h
    split at h
    · split at h
      · rename_i t hidentifier
        obtain ⟨others, hothers, heq⟩ := bind_eq_ok_iff.1 h
        cases heq
        obtain ⟨rfl, hkinds⟩ := ih hothers
        exact ⟨rfl, List.forall_mem_cons.2 ⟨hidentifier, hkinds⟩⟩
      · cases h
    · cases h

/-- What stands in front of a sign stands in the run. -/
theorem Declaration.cut_subset (kind : Token.Kind) (run : List Token) : (cut kind run).1 ⊆ run := by
  intro t ht
  rcases cut_cases kind run with hcut | ⟨before, mid, after, hcut, hrun, -⟩ <;> rw [hcut] at ht
  · exact ht
  · rw [hrun]
    exact List.mem_append_left _ ht

/-- What a declaration declares is made of names. -/
theorem Declaration.isName_of_read {s : Statement} {d : Declaration} (h : read s = .ok d)
    (hs : Token.Named s.tokens) : ∀ name ∈ d.names, Token.IsName name.lexeme := by
  obtain ⟨-, hnames, -⟩ := read_eq_ok h
  obtain ⟨hpieces, hkinds⟩ := pieces_of_readNames hnames
  intro name hname
  refine hs name (List.mem_cons_of_mem _ ?_) (hkinds name hname)
  have hmem : name ∈ (cut .colon (cut .equal s.rest).1).1 :=
    Token.subset_of_mem_pieces [name] (hpieces ▸ List.mem_map_of_mem hname)
      (List.mem_singleton_self name)
  exact cut_subset .equal _ (cut_subset .colon _ hmem)

namespace Effect

variable {E : Effect} {run : List Token}

/-- Expressions between commas have the effects that their tokens count. -/
theorem count_of_parseList {es : List Expr} (heof : ∀ t ∈ run, t.kind ≠ .eof)
    (h : Expr.parseList run = .ok es) : E.count run = E.totalOf es := by
  obtain ⟨n, -, hderives⟩ := Expr.derives_of_parseList h
  rw [Expr.body_eq_self heof] at hderives
  exact hderives.counted E

/-- A type has the effects that its tokens count. -/
theorem count_of_parseType {e : Expr} (heof : ∀ t ∈ run, t.kind ≠ .eof)
    (h : Expr.parseType run = .ok e) : E.count run = E.total e := by
  obtain ⟨t, name, sizes, ts, hbody, ht, rfl, n, -, hderives⟩ := Expr.derives_of_parseType h
  rw [Expr.body_eq_self heof] at hbody
  rw [hbody, count_cons (by simp [ht]) (by simp [ht]), (hderives.counted E).1, total_eq]
  simp [own, Expr.children]

/-- The names of a declaration have no effect. -/
theorem count_of_readNames {keyword : Token} {names : List Token}
    (h : Declaration.readNames keyword (Token.splitCommas run) = .ok names) : E.count run = 0 := by
  obtain ⟨hpieces, hkinds⟩ := Declaration.pieces_of_readNames h
  have hkind : ∀ t ∈ run, t.kind = .comma ∨ t.kind = .identifier := by
    intro t ht
    refine (Token.mem_pieces 0 ht).imp_right ?_
    rintro ⟨piece, hpiece, hmem⟩
    change piece ∈ Token.splitCommas run at hpiece
    rw [hpieces] at hpiece
    obtain ⟨name, hname, rfl⟩ := List.mem_map.1 hpiece
    rw [List.mem_singleton.1 hmem]
    exact hkinds name hname
  refine count_eq_zero (fun t ht op => ?_) (fun t ht => ?_) <;>
    rcases hkind t ht with hkind | hkind <;> simp [hkind]

end Effect

namespace Statement

/-- What stands before the equal sign or compound operator of a statement, and what stands behind
it. -/
def sides (s : Statement) : List Token × List Token :=
  let isSign : Token.Kind → Bool :=
    if s.kind = .assignment then Token.Kind.isAssignment else (· = .equal)
  match Token.splitTop isSign 0 s.tokens with
  | none => (s.tokens, [])
  | some (before, _, after) => (before, after)

/-- The number of times that each side of a statement is written. The side behind the sign is written
once for each name or place that shares it; the places of `%=` and `^=` are written twice. -/
def copies (scopes : Scopes) (s : Statement) : Nat × Nat :=
  match s.kind with
  | .declaration | .initialization =>
    match Declaration.read s with
    | .ok d => (1, Effect.sharers scopes d.names.length d.initializers)
    | .error _ => (1, 1)
  | .assignment =>
    match Assignment.read s with
    | .ok a => Effect.assignmentCopies scopes a
    | .error _ => (1, 1)
  | _ => (1, 1)

variable {s : Statement} {E : Effect}

/-- The sign itself has no effect, so the sides have those of the whole. -/
theorem count_sides (E : Effect) (s : Statement) :
    E.count s.tokens = E.count s.sides.1 + E.count s.sides.2 := by
  unfold sides
  dsimp only
  split
  · rfl
  · rename_i before mid after hsplit
    obtain ⟨htokens, hsign⟩ := Token.eq_append_of_splitTop hsplit
    have hmid : mid.kind = .equal ∨ ∃ op, mid.kind = .compound op := by
      cases hkind : mid.kind <;> rw [hkind] at hsign <;> split at hsign <;>
        simp [Token.Kind.isAssignment] at hsign ⊢
    rw [htokens]
    refine Effect.count_append_cons (fun op => ?_) ?_ ?_ <;>
      rcases hmid with hmid | ⟨_, hmid⟩ <;> simp [hmid]

/-- The sides of a declaration, whose keyword has no effect. -/
theorem count_sides_declaration (hkind : s.kind = .declaration ∨ s.kind = .initialization)
    (hlead : s.lead.kind = .keyword .var ∨ s.lead.kind = .keyword .const) :
    E.count s.sides.1 = E.count (Declaration.cut .equal s.rest).1 ∧
      E.count s.sides.2 = ((Declaration.cut .equal s.rest).2.elim 0 fun initial =>
        E.count initial.2) := by
  have hassignment : s.kind ≠ .assignment := by rcases hkind with hkind | hkind <;> simp [hkind]
  have hsplit : Token.splitTop (· = .equal) 0 s.tokens =
      (Token.splitTop (· = .equal) 0 s.rest).map (Prod.map (s.lead :: ·) id) := by
    rcases hlead with hlead | hlead <;> exact Token.splitTop_keyword hlead s.rest
  have hfirst : ∀ ts, E.count (s.lead :: ts) = E.count ts := by
    intro ts
    refine Effect.count_cons (fun op => ?_) ?_ <;> rcases hlead with hlead | hlead <;> simp [hlead]
  unfold sides Declaration.cut
  simp only [if_neg hassignment, hsplit]
  cases Token.splitTop (· = .equal) 0 s.rest with
  | none => simpa [tokens, Effect.count] using hfirst s.rest
  | some split => simp [hfirst]

end Statement

namespace Declaration

variable {E : Effect} {scopes : Scopes} {s : Statement} {d : Declaration} {plan : Plan}

/-- The names and the type of a declaration have no effect. -/
theorem count_head (heof : ∀ t ∈ s.rest, t.kind ≠ .eof) (hread : read s = .ok d)
    (hplan : (d.plan scopes).outcome = .ok plan) : E.count (cut .equal s.rest).1 = 0 := by
  obtain ⟨-, hnames, htype, -⟩ := read_eq_ok hread
  obtain ⟨type, hresolved, -⟩ := plan_cases hplan
  have heof : ∀ t ∈ (cut .equal s.rest).1, t.kind ≠ .eof :=
    fun t ht => heof t (cut_subset .equal s.rest ht)
  have hnone : E.count (cut .colon (cut .equal s.rest).1).1 = 0 := Effect.count_of_readNames hnames
  rcases cut_cases .colon (cut .equal s.rest).1 with hcut | ⟨before, mid, after, hcut, hrun, hmid⟩ <;>
    rw [hcut] at htype hnone
  · exact hnone
  · simp only [readType, bind_eq_ok_iff] at htype
    obtain ⟨run, hrequire, e, hparse, heq⟩ := htype
    rw [← Except.ok.inj heq] at hresolved
    obtain ⟨resolved, hresolved, -⟩ := hresolved
    rw [require_eq_ok hrequire] at hparse
    have hafter := Effect.count_of_parseType (E := E) (fun t ht => heof t (by simp [hrun, ht])) hparse
    rw [hrun, Effect.count_append_cons (by simp [hmid]) (by simp [hmid]) (by simp [hmid]), hnone,
      hafter, Effect.total_of_resolveType hresolved]

/-- The initial values have the effects that the tokens behind the equal sign count. -/
theorem count_initializers (heof : ∀ t ∈ s.rest, t.kind ≠ .eof) (hread : read s = .ok d) :
    ((cut .equal s.rest).2.elim 0 fun initial => E.count initial.2) =
      E.totalOf d.initializers := by
  obtain ⟨-, -, -, hinitializers⟩ := read_eq_ok hread
  rcases cut_cases .equal s.rest with hcut | ⟨before, mid, after, hcut, hrun, -⟩ <;>
    rw [hcut] at hinitializers ⊢
  · rw [← Except.ok.inj hinitializers]
    rfl
  · obtain ⟨run, hrequire, hparse⟩ := bind_eq_ok_iff.1 hinitializers
    rw [require_eq_ok hrequire] at hparse
    exact Effect.count_of_parseList (fun t ht => heof t (by simp [hrun, ht])) hparse

end Declaration

namespace Emission

variable {deny : Bool} {e e' : Emission} {s : Statement}

/-- Binding names adds no lines. -/
theorem lines_of_bind {mutable : Bool} {bindings : List Binding}
    (h : e.bind deny mutable bindings = .ok e') : e'.lines = e.lines := by
  induction bindings generalizing e with
  | nil =>
    cases h
    rfl
  | cons b bindings ih =>
    simp only [Emission.bind, bind_eq_ok_iff, mapError_eq_ok_iff] at h
    obtain ⟨e₁, hfirst, hothers⟩ := h
    obtain ⟨_, _, -, rfl⟩ := eq_of_declare hfirst
    rw [ih hothers]

/-- A statement emits lines that have an effect as often as its sides, each as often as it is
written. -/
def Emits (E : Effect) (e e' : Emission) (s : Statement) : Prop :=
  ∃ lines, e'.lines = lines ++ e.lines ∧
    E.inLines lines = (s.copies e.scopes).1 * E.count s.sides.1 +
      (s.copies e.scopes).2 * E.count s.sides.2

variable {E : Effect}

/-- A declaration emits the effects of its tokens, those of the values as often as the values are
written. -/
theorem emits_declaration (hkind : s.kind = .declaration ∨ s.kind = .initialization)
    (hlead : s.lead.kind = .keyword .var ∨ s.lead.kind = .keyword .const)
    (heof : ∀ t ∈ s.tokens, t.kind ≠ .eof) (hnamed : Token.Named s.tokens)
    (hscopes : e.scopes.Every Symbol.IsNullFree) (h : e.declaration deny s = .ok e') :
    Emits E e e' s := by
  obtain ⟨d, plan, bound, hread, -, hplan, hbind, rfl⟩ := eq_of_declaration h
  obtain ⟨lines, hemitted, hcount⟩ := Effect.exists_lines_of_emit E bound plan.lines
  refine ⟨lines, by rw [hemitted, lines_of_bind hbind], ?_⟩
  have hcopies : s.copies e.scopes =
      (1, Effect.sharers e.scopes d.names.length d.initializers) := by
    rcases hkind with hkind | hkind <;> simp [Statement.copies, hkind, hread]
  have hplanned := Effect.inLines_plan (E := E) hscopes (Declaration.isName_of_read hread hnamed)
    (Declaration.wellSpelled_of_read hread hnamed).1 hplan
  obtain ⟨hbefore, hbehind⟩ := Statement.count_sides_declaration (E := E) hkind hlead
  have heof : ∀ t ∈ s.rest, t.kind ≠ .eof := fun t ht => heof t (List.mem_cons_of_mem _ ht)
  rw [hcount, hplanned, hcopies, hbefore, hbehind, Declaration.count_head heof hread hplan,
    Declaration.count_initializers heof hread]
  simp

/-- Expressions that are evaluated for their effect emit it once. -/
theorem emits_operation (hkind : s.kind = .operation) (heof : ∀ t ∈ s.tokens, t.kind ≠ .eof)
    (hnamed : Token.Named s.tokens) (h : e.operation deny s = .ok e') : Emits E e e' s := by
  obtain ⟨es, lines, hparse, hlines, rfl⟩ := eq_of_operation h
  obtain ⟨new, hemitted, hcount⟩ := Effect.exists_lines_of_emit E _ lines
  refine ⟨new, hemitted, ?_⟩
  have hspelled := Expr.wellSpelled_of_parseList hparse hnamed
  rw [hcount, Effect.inLines_operationLines hspelled hlines,
    ← Effect.count_of_parseList heof hparse, Statement.count_sides]
  simp [Statement.copies, hkind]

/-- An assignment emits the effects of its tokens, those of each side as often as the side is
written. -/
theorem emits_assignment (hkind : s.kind = .assignment) (heof : ∀ t ∈ s.tokens, t.kind ≠ .eof)
    (hnamed : Token.Named s.tokens)
    (hsymbols : ∀ t ∈ s.tokens, ∀ op, t.kind = .compound op → t.lexeme = op.symbol ++ "=")
    (h : e.assignment deny s = .ok e') : Emits E e e' s := by
  obtain ⟨a, lines, hread, hlines, rfl⟩ := eq_of_assignment h
  obtain ⟨new, hemitted, hcount⟩ := Effect.exists_lines_of_emit E _ lines
  refine ⟨new, hemitted, ?_⟩
  obtain ⟨before, after, hsplit, htargets, hvalues⟩ := Assignment.read_eq_ok hread
  obtain ⟨htokens, -⟩ := Token.eq_append_of_splitTop hsplit
  have hmem : ∀ t, t ∈ before ∨ t ∈ after → t ∈ s.tokens := by
    intro t ht
    rw [htokens]
    rcases ht with ht | ht <;> simp [ht]
  have hoperator : a.operator ∈ s.tokens := by simp [htokens]
  have hsides : s.sides = (before, after) := by simp [Statement.sides, hkind, hsplit]
  have hcopies : s.copies e.scopes = Effect.assignmentCopies e.scopes a := by
    simp [Statement.copies, hkind, hread]
  rw [hcount, hsides, hcopies, Effect.count_of_parseList (fun t ht => heof t (hmem t (.inl ht))) htargets,
    Effect.count_of_parseList (fun t ht => heof t (hmem t (.inr ht))) hvalues]
  exact Effect.inLines_assignment (hsymbols a.operator hoperator)
    (Expr.wellSpelled_of_parseList htargets fun t ht => hnamed t (hmem t (.inl ht)))
    (Expr.wellSpelled_of_parseList hvalues fun t ht => hnamed t (hmem t (.inr ht)))
    (Expr.ne_nil_of_parseList hvalues) hlines

end Emission

/-- Wherever the emission of a source has got to, a declaration, an operation or an assignment that
is accepted emits every effect as often as its own tokens have it, where each side of the sign is
counted as often as it is written: a single value that is not unpacked once for each name or place
that shares it, and the places of `%=` and `^=` twice. -/
theorem Source.emits_effects {source : Source} {tokens : List Token}
    {before after : List Statement} {s : Statement} {deny : Bool} {e e' : Emission} (E : Effect)
    (htokens : source.significant = .ok tokens)
    (hstatements : source.statements tokens = .ok (before ++ s :: after))
    (hrun : Emission.run deny {} before = .ok e) (hstep : e.step deny s = .ok e')
    (hkind : s.kind ∈ [.declaration, .initialization, .operation, .assignment]) :
    (∃ lines, e'.lines = lines ++ e.lines ∧
      E.inLines lines = (s.copies e.scopes).1 * E.count s.sides.1 +
        (s.copies e.scopes).2 * E.count s.sides.2) ∧
      E.count s.tokens = E.count s.sides.1 + E.count s.sides.2 := by
  refine ⟨?_, s.count_sides E⟩
  have hs : s ∈ before ++ s :: after := by simp
  have hnamed := named_of_statements htokens hstatements s hs
  have hscopes := Emission.isNullFree_of_run hrun
  have hdispatch := Emission.dispatch_of_step hstep
  obtain ⟨all, hall, rfl, hmem⟩ := mem_of_statements htokens hstatements
  have heof : ∀ t ∈ s.tokens, t.kind ≠ .eof := by
    intro t ht
    have hsignificant := Statement.mem_of_group (mapError_eq_ok_iff.1 hstatements) s hs t ht
    simp only [List.mem_filter, Token.isSignificant, Bool.and_eq_true, decide_eq_true_eq] at hsignificant
    exact hsignificant.2.2
  have hlead := Statement.lead_of_declaration (mapError_eq_ok_iff.1 hstatements) hs
  -- What the previous statement closed bears neither on the lines nor on the scopes.
  change Emission.Emits E { e with closed := none } e' s
  simp only [List.mem_cons, List.not_mem_nil, or_false] at hkind
  rcases hkind with hkind | hkind | hkind | hkind <;> simp only [Emission.dispatch, hkind] at hdispatch
  · exact Emission.emits_declaration (.inl hkind) (hlead (.inl hkind)) heof hnamed hscopes hdispatch
  · exact Emission.emits_declaration (.inr hkind) (hlead (.inr hkind)) heof hnamed hscopes hdispatch
  · exact Emission.emits_operation hkind heof hnamed hdispatch
  · refine Emission.emits_assignment hkind heof hnamed (fun t ht op hop => ?_) hdispatch
    have hstandalone : t.Standalone := Token.standalone_of_mem_scan hall t (hmem s hs t ht)
      (by simp [hop]) (by simp [hop]) (by simp [hop])
    exact hstandalone.lexeme_of_compound hop

/-- What `observe` sees of the emission of the statement at `index`: the emission before it, the
statement, and the emission behind it. -/
def Source.observed {α : Type} (source : Source) (index : Nat)
    (observe : Emission → Statement → Emission → α) : Option α := do
  let tokens ← source.significant.toOption
  let statements ← (source.statements tokens).toOption
  let s ← statements[index]?
  let e ← (Emission.run false {} (statements.take index)).toOption
  let e' ← (e.step false s).toOption
  return observe e s e'

/-- What is observed of the statement at an index of a program is what the step of the emission at
that statement does. -/
theorem Source.exists_of_observed {α : Type} {source : Source} {index : Nat}
    {observe : Emission → Statement → Emission → α} {seen : α}
    (h : source.observed index observe = some seen) :
    ∃ tokens before s after e e', source.significant = .ok tokens ∧
      source.statements tokens = .ok (before ++ s :: after) ∧
      Emission.run false {} before = .ok e ∧ e.step false s = .ok e' ∧ observe e s e' = seen := by
  simp only [observed, Option.bind_eq_bind, Option.bind_eq_some_iff] at h
  obtain ⟨tokens, htokens, statements, hstatements, s, hs, e, hrun, e', hstep, hseen⟩ := h
  obtain ⟨hindex, rfl⟩ := List.getElem?_eq_some_iff.1 hs
  have hcut : statements.take index ++ statements[index] :: statements.drop (index + 1) =
      statements := by simp
  refine ⟨tokens, _, _, statements.drop (index + 1), e, e', eq_ok_of_toOption htokens, ?_,
    eq_ok_of_toOption hrun, eq_ok_of_toOption hstep, Option.some.inj hseen⟩
  rw [hcut]
  exact eq_ok_of_toOption hstatements

/-- A program that steps a variable in an initializer that two names share, and in a place that `%=`
reads again. -/
private def sharedStep : Source :=
  ⟨"shared", "main\x7bvar i=0;var v=[1,2];var a,b:i32=i++;v[i++]%=3\x7d"⟩

/-- The step of the declaration is written for both of its names. -/
theorem sharedStep_emits_effects :
    ∃ tokens before s after e e', sharedStep.significant = .ok tokens ∧
      sharedStep.statements tokens = .ok (before ++ s :: after) ∧
      Emission.run false {} before = .ok e ∧ e.step false s = .ok e' ∧
      s.kind ∈ [.declaration, .initialization, .operation, .assignment] ∧
      (∃ lines, e'.lines = lines ++ e.lines ∧
        (Effect.step .increment).inLines lines =
          (s.copies e.scopes).1 * (Effect.step .increment).count s.sides.1 +
            (s.copies e.scopes).2 * (Effect.step .increment).count s.sides.2) ∧
      (Effect.step .increment).count s.tokens =
        (Effect.step .increment).count s.sides.1 + (Effect.step .increment).count s.sides.2 := by
  have hseen : sharedStep.observed 5 (fun _ s _ => s.kind) = some .assignment := by decide +kernel
  obtain ⟨tokens, before, s, after, e, e', htokens, hstatements, hrun, hstep, hkind⟩ :=
    Source.exists_of_observed hseen
  have hmem : s.kind ∈ [.declaration, .initialization, .operation, .assignment] := by simp [hkind]
  exact ⟨tokens, before, s, after, e, e', htokens, hstatements, hrun, hstep, hmem,
    Source.emits_effects (.step .increment) htokens hstatements hrun hstep hmem⟩

/-- The lines of a statement, its kind, and how often it steps upwards: by its tokens, and by its
lines. -/
private def stepsOf (e : Emission) (s : Statement) (e' : Emission) :
    Statement.Kind × Nat × Nat × Bool :=
  let lines := e'.lines.take (e'.lines.length - e.lines.length)
  (s.kind, (Effect.step .increment).count s.tokens, (Effect.step .increment).inLines lines,
    lines ++ e.lines = e'.lines)

/-- A statement of the given kind steps a variable upwards once, and emits the step twice. -/
def Source.EmitsTwice (source : Source) (kind : Statement.Kind) : Prop :=
  ∃ tokens before s after e e' lines, source.significant = .ok tokens ∧
    source.statements tokens = .ok (before ++ s :: after) ∧
    Emission.run false {} before = .ok e ∧ e.step false s = .ok e' ∧ s.kind = kind ∧
    e'.lines = lines ++ e.lines ∧ (Effect.step .increment).count s.tokens = 1 ∧
    (Effect.step .increment).inLines lines = 2

/-- One step that is emitted twice, observed at an index of a program. -/
theorem Source.emitsTwice_of_observed {source : Source} (index : Nat) {kind : Statement.Kind}
    (h : source.observed index stepsOf = some (kind, 1, 2, true)) : source.EmitsTwice kind := by
  obtain ⟨tokens, before, s, after, e, e', htokens, hstatements, hrun, hstep, hseen⟩ :=
    exists_of_observed h
  simp only [stepsOf, Prod.mk.injEq, decide_eq_true_eq] at hseen
  obtain ⟨hkind, hown, hemitted, hlines⟩ := hseen
  exact ⟨tokens, before, s, after, e, e', _, htokens, hstatements, hrun, hstep, hkind,
    hlines.symm, hown, hemitted⟩

/-- Neither the declaration nor the assignment emits its step once: each emits it twice. -/
theorem sharedStep_emits_twice :
    sharedStep.EmitsTwice .initialization ∧ sharedStep.EmitsTwice .assignment :=
  ⟨Source.emitsTwice_of_observed 4 (by decide +kernel),
    Source.emitsTwice_of_observed 5 (by decide +kernel)⟩

end Sprout
