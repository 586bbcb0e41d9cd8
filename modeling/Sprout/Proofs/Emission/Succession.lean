import Sprout.Proofs.Emission.Acceptance
import Sprout.Proofs.Parsing.Completeness
import Sprout.Proofs.Statements.Pieces

namespace Sprout

namespace Token

/-- Whether a run does not end with a token that needs something behind it. -/
def EndsWell (ts : List Token) : Prop :=
  ∀ t ∈ ts.getLast?, t.kind.continues = false

variable {ts us : List Token} {t : Token}

/-- No tokens need nothing behind them. -/
theorem EndsWell.nil : EndsWell [] := by
  intro t ht
  cases ht

/-- A token that needs nothing behind it ends well by itself. -/
theorem EndsWell.singleton (h : t.kind.continues = false) : EndsWell [t] := by
  intro t' ht'
  cases ht'
  exact h

/-- Two runs that end well do so one behind the other. -/
theorem EndsWell.append (hts : EndsWell ts) (hus : EndsWell us) : EndsWell (ts ++ us) := by
  intro t ht
  rw [List.getLast?_append] at ht
  cases hlast : us.getLast? with
  | none => exact hts t (by simpa [hlast] using ht)
  | some last => exact hus t (by simpa [hlast] using ht)

/-- Only what stands last matters. -/
theorem EndsWell.behind (hne : us ≠ []) (hus : EndsWell us) (ts : List Token) :
    EndsWell (ts ++ us) := by
  intro t ht
  rw [List.getLast?_append, List.getLast?_eq_some_getLast hne] at ht
  refine hus t ?_
  rw [List.getLast?_eq_some_getLast hne]
  simpa using ht

/-- A run that ends well does so with a token in front of it. -/
theorem EndsWell.cons (h : t.kind.continues = false) (hts : EndsWell ts) : EndsWell (t :: ts) :=
  (EndsWell.singleton h).append hts

end Token

namespace Expr

open Token (EndsWell)

/-- Whether a phrase has at least one token. -/
def Phrase.isWhole : Phrase → Bool
  | .tier _ _ | .unary _ | .stepped _ | .primary _ | .list _ => true
  | _ => false

/-- No phrase ends with a token that needs something behind it, by induction on the derivation: what
a rule puts last is a closing bracket, a name, a literal or a shorter phrase. -/
theorem Derives.endsWell {p : Phrase} {n : Nat} {ts : List Token} (h : Derives p n ts) :
    EndsWell ts ∧ (p.isWhole = true → ts ≠ []) := by
  have closes {t : Token} {kind : Token.Kind} (ht : t.kind = kind)
      (hkind : kind.continues = false) : EndsWell [t] := .singleton (by rw [ht, hkind])
  induction h with
  | binary hop ht hleft hright ihleft ihright =>
    rw [← List.singleton_append, ← List.append_assoc]
    exact ⟨.behind (ihright.2 rfl) ihright.1 _, by simp⟩
  | tighter h ih | unary h ih | stepped h ih | primary h ih | last h ih =>
    exact ⟨ih.1, fun _ => ih.2 rfl⟩
  | plus ht h ih | minus ht h ih | not ht h ih | stepBefore ht h ih =>
    exact ⟨.behind (ih.2 rfl) ih.1 [_], by simp⟩
  | stepAfter ht h ih => exact ⟨.behind (by simp) (closes ht rfl) _, by simp⟩
  | number ht =>
    refine ⟨?_, by simp⟩
    rcases ht with ht | ht | ht <;> exact closes ht rfl
  | bool ht | string ht | null ht => exact ⟨closes ht rfl, by simp⟩
  | char ht hc => exact ⟨closes ht rfl, by simp⟩
  | chain hname h ih => exact ⟨.cons (by rw [hname]; rfl) ih.1, by simp⟩
  | type ht hsizes hargs ihsizes ihargs =>
    exact ⟨.cons (by rw [ht]; rfl) (ihsizes.1.append ihargs.1), by simp⟩
  | parenthesised hopening hclosing h ih | array hopening hclosing h ih =>
    exact ⟨.behind (by simp) (closes hclosing rfl) (_ :: _), by simp⟩
  | link hargs hindexes hmember ihargs ihindexes ihmember =>
    exact ⟨ihargs.1.append (ihindexes.1.append ihmember.1), fun hwhole => by cases hwhole⟩
  | noArguments | noIndex | noMember | noDimension | noItems =>
    exact ⟨.nil, fun hwhole => by cases hwhole⟩
  | arguments hopening hclosing h ih =>
    exact ⟨.behind (by simp) (closes hclosing rfl) (_ :: _), by simp⟩
  | index hopening hclosing hoffset h ihoffset ih =>
    exact ⟨.behind (by simp) (.cons (by rw [hclosing]; rfl) ih.1) (_ :: _), by simp⟩
  | member hpoint hname h ih =>
    exact ⟨.behind (by simp) (.cons (by rw [hname]; rfl) ih.1) [_], by simp⟩
  | unsized hopening hclosing h ih =>
    exact ⟨.behind (by simp) (.cons (by rw [hclosing]; rfl) ih.1) [_], by simp⟩
  | sized hopening hclosing hsize h ihsize ih =>
    exact ⟨.behind (by simp) (.cons (by rw [hclosing]; rfl) ih.1) (_ :: _), by simp⟩
  | items h ih => exact ⟨ih.1, fun hwhole => by cases hwhole⟩
  | more hcomma hhead h ihhead ih =>
    rw [← List.singleton_append, ← List.append_assoc]
    exact ⟨.behind (ih.2 rfl) ih.1 _, by simp⟩

variable {run : List Token}

/-- An expression is not empty and ends with a token that needs nothing behind it. -/
theorem endsWell_of_parse {e : Expr} (heof : ∀ t ∈ run, t.kind ≠ .eof) (h : parse run = .ok e) :
    EndsWell run ∧ run ≠ [] := by
  obtain ⟨n, -, hderives⟩ := derives_of_parse h
  rw [body_eq_self heof] at hderives
  exact ⟨hderives.endsWell.1, hderives.endsWell.2 rfl⟩

/-- Expressions between commas are not empty and end with such a token. -/
theorem endsWell_of_parseList {es : List Expr} (heof : ∀ t ∈ run, t.kind ≠ .eof)
    (h : parseList run = .ok es) : EndsWell run ∧ run ≠ [] := by
  obtain ⟨n, -, hderives⟩ := derives_of_parseList h
  rw [body_eq_self heof] at hderives
  exact ⟨hderives.endsWell.1, hderives.endsWell.2 rfl⟩

/-- A type is not empty and ends with such a token. -/
theorem endsWell_of_parseType {e : Expr} (heof : ∀ t ∈ run, t.kind ≠ .eof)
    (h : parseType run = .ok e) : EndsWell run ∧ run ≠ [] := by
  obtain ⟨t, name, sizes, ts, hbody, ht, -, n, -, hderives⟩ := derives_of_parseType h
  rw [body_eq_self heof] at hbody
  subst hbody
  exact ⟨.cons (by rw [ht]; rfl) hderives.endsWell.1, by simp⟩

end Expr

open Token (EndsWell)

/-- A declaration that has a plan ends with its type or with its initializers, since one without
either is refused. Both are phrases, which end well. -/
theorem Declaration.endsWell_of_plan {scopes : Scopes} {s : Statement} {d : Declaration} {plan : Plan}
    (heof : ∀ t ∈ s.tokens, t.kind ≠ .eof) (hread : read s = .ok d)
    (hplan : (d.plan scopes).outcome = .ok plan) : EndsWell s.tokens := by
  obtain ⟨-, -, htype, hinitializers⟩ := read_eq_ok hread
  have heof : ∀ t ∈ s.rest, t.kind ≠ .eof := fun t ht => heof t (List.mem_cons_of_mem _ ht)
  have hbehind : ∀ before mid after, s.rest = before ++ mid :: after → EndsWell after ∧ after ≠ [] →
      EndsWell s.tokens := by
    intro before mid after hrest hafter
    have htokens : s.tokens = (s.lead :: before ++ [mid]) ++ after := by
      simp [Statement.tokens, hrest]
    rw [htokens]
    exact .behind hafter.2 hafter.1 _
  rcases cut_cases .equal s.rest with hcut | ⟨before, mid, after, hcut, hrest, -⟩ <;>
    rw [hcut] at htype hinitializers
  · -- Without initializers there must be a type.
    rcases cut_cases .colon s.rest with hcolon | ⟨before, mid, after, hcolon, hrest, -⟩ <;>
      rw [hcolon] at htype
    · have hnil : d.initializers = [] := (Except.ok.inj hinitializers).symm
      have hnone : d.type = none := (Except.ok.inj htype).symm
      obtain ⟨type, htyped, hcases⟩ := plan_cases hplan
      rw [hnone] at htyped
      cases htyped
      rcases hcases with ⟨-, hdefault⟩ | ⟨call, members, position, hunpacked, -⟩ | ⟨first, -, hinit⟩
      · obtain ⟨own, hown, -⟩ := eq_of_planDefault hdefault
        cases hown
      · obtain ⟨e, hcons, -⟩ := eq_of_unpackable hunpacked
        rw [hnil] at hcons
        cases hcons
      · obtain ⟨hcount, -⟩ := planInitialized_eq_ok hinit
        simp [hnil, names] at hcount
    · obtain ⟨run, hrequire, e, hparse, -⟩ := by
        simpa only [readType, bind_eq_ok_iff] using htype
      rw [require_eq_ok hrequire] at hparse
      refine hbehind before mid after hrest (Expr.endsWell_of_parseType (fun t ht => ?_) hparse)
      exact heof t (by simp [hrest, ht])
  · obtain ⟨run, hrequire, hparse⟩ := bind_eq_ok_iff.1 hinitializers
    rw [require_eq_ok hrequire] at hparse
    refine hbehind before mid after hrest (Expr.endsWell_of_parseList (fun t ht => ?_) hparse)
    exact heof t (by simp [hrest, ht])

namespace Statement.Kind

/-- Whether a statement waits for the brace of a block. -/
def waits : Statement.Kind → Bool
  | main | header | alternative | bound | step => true
  | _ => false

end Statement.Kind

namespace Emission

variable {deny : Bool} {e e' : Emission} {s : Statement}

/-- Behind a statement that waits for a brace, a header is pending. -/
theorem pending_of_step (hwaits : s.kind.waits = true) (h : e.step deny s = .ok e') :
    e'.pending.isSome = true := by
  cases Act.of_step h with
  | start _ _ hstart =>
    obtain ⟨-, -, -, rfl⟩ := eq_of_start hstart
    rfl
  | header _ _ _ hheader =>
    obtain ⟨waiting, -, rfl⟩ := eq_of_header hheader
    rfl
  | alternative _ _ _ halternative =>
    obtain ⟨-, waiting, -, rfl⟩ := eq_of_alternative halternative
    rfl
  | bound _ hclause | step _ hclause =>
    obtain ⟨expr, typed, header, -, -, -, -, rfl⟩ := eq_of_clause hclause
    rfl
  | declaration hkind =>
    rcases hkind with hkind | hkind <;> simp [hkind, Statement.Kind.waits] at hwaits
  | operation hkind | assignment hkind | jump hkind | result hkind | opening hkind | closing hkind =>
    simp [hkind, Statement.Kind.waits] at hwaits

/-- Any other statement that is no brace ends with a token that needs nothing behind it. -/
theorem endsWell_of_step (hkind : s.kind = Statement.classify s.lead s.rest)
    (hwaits : s.kind.waits = false) (heof : ∀ t ∈ s.tokens, t.kind ≠ .eof)
    (h : e.step deny s = .ok e') : EndsWell s.tokens := by
  have hrest : ∀ t ∈ s.rest, t.kind ≠ .eof := fun t ht => heof t (List.mem_cons_of_mem _ ht)
  -- A statement that is a word alone ends with that word, which is known from how it was
  -- classified.
  have hlead : s.kind = .jump ∨ s.kind = .result → s.lead.kind.continues = false := by
    intro hword
    rw [hkind] at hword
    unfold Statement.classify at hword
    repeat' split at hword
    all_goals first
      | rename_i hlead
        rw [hlead]
        rfl
      | simp at hword
  obtain ⟨hopening, hclosing, -⟩ := Grouping.classify_ne s.lead s.rest
  rw [← hkind] at hopening hclosing
  cases Act.of_step h with
  | declaration _ _ hdeclaration =>
    obtain ⟨d, plan, bound, hread, -, hplan, -⟩ := eq_of_declaration hdeclaration
    exact Declaration.endsWell_of_plan heof hread hplan
  | operation _ _ _ hoperation =>
    obtain ⟨es, lines, hparse, -⟩ := eq_of_operation hoperation
    exact (Expr.endsWell_of_parseList heof hparse).1
  | assignment _ _ _ hassignment =>
    obtain ⟨a, lines, hread, -⟩ := eq_of_assignment hassignment
    obtain ⟨before, after, hsplit, -, hparse⟩ := Assignment.read_eq_ok hread
    obtain ⟨htokens, -⟩ := Token.eq_append_of_splitTop hsplit
    obtain ⟨hends, hne⟩ := Expr.endsWell_of_parseList
      (fun t ht => heof t (by simp [htokens, ht])) hparse
    rw [htokens, ← List.singleton_append, ← List.append_assoc]
    exact .behind hne hends _
  | jump hown _ _ hjump =>
    obtain ⟨hnil, -⟩ := eq_of_jump hjump
    rw [Statement.tokens, hnil]
    exact .singleton (hlead (.inl hown))
  | result hown _ _ hresult =>
    obtain ⟨-, text, htext, -⟩ := eq_of_result hresult
    obtain ⟨hnil, -⟩ | ⟨-, expr, typed, hparse, -⟩ := resultText_eq_ok htext
    · rw [Statement.tokens, hnil]
      exact .singleton (hlead (.inr hown))
    · obtain ⟨hends, hne⟩ := Expr.endsWell_of_parse hrest hparse
      exact .behind hne hends [s.lead]
  | opening hown => exact absurd hown hopening
  | closing hown => exact absurd hown hclosing
  | start hown | header hown | alternative hown | bound hown | step hown =>
    simp [hown, Statement.Kind.waits] at hwaits

/-- Behind a statement that waits for a brace stands what may stand there. -/
theorem continuesHeader_of_run {s' : Statement} {after : List Statement}
    (hwaits : s.kind.waits = true) (h : run deny e (s :: s' :: after) = .ok e') :
    s'.kind.continuesHeader = true := by
  obtain ⟨e₁, hstep, hrun⟩ := run_cons h
  obtain ⟨e₂, hstep', -⟩ := run_cons hrun
  have hpending := pending_of_step hwaits hstep
  exact (step_pending hstep').resolve_right fun hnone => by simp [hnone] at hpending

/-- What holds of a statement and the one behind it in a program that is emitted. -/
structure Succeeds (s s' : Statement) : Prop where
  continuesHeader : s.kind.waits = true → s'.kind.continuesHeader = true
  endsWell : s.kind = Statement.classify s.lead s.rest → s.kind.waits = false → EndsWell s.tokens

/-- In a program that is emitted, every statement may stand behind the one before it. A block header
has nothing but clauses and its brace behind it; any other statement ends with a token that needs
nothing to follow. -/
theorem succeeds_of_run {statements : List Statement}
    (heof : ∀ s ∈ statements, ∀ t ∈ s.tokens, t.kind ≠ .eof)
    (h : run deny e statements = .ok e') : statements.IsChain Succeeds := by
  induction statements generalizing e with
  | nil => exact .nil
  | cons s rest ih =>
    rw [List.forall_mem_cons] at heof
    obtain ⟨e₁, hstep, hrun⟩ := run_cons h
    refine (ih heof.2 hrun).cons fun s' hs' => ?_
    obtain ⟨after, rfl⟩ := List.head?_eq_some_iff.1 hs'
    exact ⟨fun hwaits => continuesHeader_of_run hwaits h,
      fun hkind hwaits => endsWell_of_step hkind hwaits heof.1 hstep⟩

end Emission

end Sprout
