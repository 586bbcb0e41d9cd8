import Sprout.Proofs.Outcome
import Sprout.Proofs.Parsing.Grammar
import Sprout.Proofs.Parsing.Readings

namespace Sprout.Expr

/-- The tokens of a run in front of `rest` are a phrase of at most `limit` levels. Each reader is
followed under the assumption that the reader one level down only ever takes such phrases. -/
def Took (p : Phrase) (limit : Nat) (ts rest : List Token) : Prop :=
  ∃ n used, n ≤ limit ∧ ts = used ++ rest ∧ Derives p n used

/-- No operator that binds tighter than the floor stands in front of a run. -/
def Bounded (floor : Nat) (ts : List Token) : Prop :=
  ∀ op, headKind ts = some (.operator op) → op.precedence ≤ floor

/-- A reader of expressions that takes only phrases of at most `limit` levels, as far as operators
bind tighter than its floor. -/
structure Sound (read : ExpressionReader) (limit : Nat) : Prop where
  stops : ∀ {floor ts e rest}, seen (read floor ts) = .ok (e, rest) → Bounded floor rest
  tier : ∀ {floor ts e rest}, seen (read floor ts) = .ok (e, rest) → floor ≤ tierCount →
    Took (.tier floor e) limit ts rest
  unary : ∀ {floor ts e rest}, seen (read floor ts) = .ok (e, rest) → tierCount ≤ floor →
    Took (.unary e) limit ts rest

/-- A reading leaves fewer tokens over than its bound says. -/
theorem length_lt_of_seen {α : Type} {bound : Nat} {reading : Reading α bound} {value : α}
    {rest : List Token} (h : seen reading = .ok (value, rest)) : rest.length < bound := by
  cases reading with
  | error defect => cases h
  | ok taken =>
    cases h
    exact taken.short

section Lists

variable {read : ExpressionReader} {limit : Nat} (hread : Sound read limit)

include hread

/-- Behind a first element, the rest of a list makes a list of them all. -/
theorem Sound.listTail {e : Expr} {whole ts : List Token} {es : List Expr} {rest : List Token}
    (hfirst : Took (.tier 0 e) limit whole ts) (h : seen (listTail read ts) = .ok (es, rest)) :
    Took (.list (e :: es)) (limit + 1) whole rest := by
  induction hlength : ts.length using Nat.strongRecOn generalizing e whole ts es rest with
  | ind length ih =>
    obtain ⟨m, used, hm, rfl, hused⟩ := hfirst
    cases ts with
    | nil =>
      rw [seen_listTail_nil] at h
      cases h
      exact ⟨m + 1, used, by omega, rfl, hused.last⟩
    | cons t ts =>
      rw [seen_listTail_cons] at h
      split at h
      · rename_i hcomma
        rw [seen_list] at h
        obtain ⟨⟨head, afterHead⟩, hhead, h⟩ := bind_eq_ok_iff.1 h
        obtain ⟨⟨tail, afterTail⟩, htail, h⟩ := bind_eq_ok_iff.1 h
        cases h
        have hshort := length_lt_of_seen hhead
        simp only [List.length_cons] at hlength
        obtain ⟨n, others, hn, rfl, hothers⟩ :=
          ih afterHead.length (by omega) (hread.tier hhead (by decide)) htail rfl
        exact ⟨max (m + 1) n, used ++ t :: others, by omega, by simp, hused.more hcomma hothers⟩
      · cases h
        exact ⟨m + 1, used, by omega, rfl, hused.last⟩

/-- What is read as a list is one. -/
theorem Sound.list {ts : List Token} {es : List Expr} {rest : List Token}
    (h : seen (list read ts) = .ok (es, rest)) : Took (.list es) (limit + 1) ts rest := by
  rw [seen_list] at h
  obtain ⟨⟨head, afterHead⟩, hhead, h⟩ := bind_eq_ok_iff.1 h
  obtain ⟨⟨tail, afterTail⟩, htail, h⟩ := bind_eq_ok_iff.1 h
  cases h
  exact hread.listTail (hread.tier hhead (by decide)) htail

omit hread in
/-- A token that must be there is the first one. -/
theorem eq_cons_of_headKind {ts : List Token} {kind : Token.Kind} (h : headKind ts = some kind) :
    ∃ t rest, ts = t :: rest ∧ t.kind = kind := by
  cases ts with
  | nil => cases h
  | cons t rest => exact ⟨t, rest, rfl, by simpa using h⟩

/-- What is read up to a closing bracket is an expression with that bracket behind it. -/
theorem Sound.closed {close : Token.Kind} {defect : Defect Malformed} {ts : List Token} {e : Expr}
    {rest : List Token} (h : seen (closed read close defect ts) = .ok (e, rest)) :
    ∃ closing, closing.kind = close ∧ Took (.tier 0 e) limit ts (closing :: rest) := by
  rw [seen_closed] at h
  obtain ⟨⟨inner, afterInner⟩, hinner, h⟩ := bind_eq_ok_iff.1 h
  simp only at h
  split at h
  · rename_i hhead
    obtain ⟨closing, after, rfl, hkind⟩ := eq_cons_of_headKind hhead
    cases h
    exact ⟨closing, hkind, hread.tier hinner (by decide)⟩
  · cases h

/-- What is read between brackets is a list, or nothing, with the closing bracket behind it. -/
theorem Sound.enclosed {close : Token.Kind} {defect : Defect Malformed} {ts : List Token}
    {es : List Expr} {rest : List Token} (h : seen (enclosed read close defect ts) = .ok (es, rest)) :
    ∃ closing, closing.kind = close ∧ Took (.items es) (limit + 1) ts (closing :: rest) := by
  rw [seen_enclosed] at h
  split at h
  · rename_i hhead
    obtain ⟨closing, after, rfl, hkind⟩ := eq_cons_of_headKind hhead
    cases h
    exact ⟨closing, hkind, 1, [], by omega, rfl, .noItems⟩
  · obtain ⟨⟨items, afterItems⟩, hitems, h⟩ := bind_eq_ok_iff.1 h
    simp only at h
    split at h
    · rename_i hhead
      obtain ⟨closing, after, rfl, hkind⟩ := eq_cons_of_headKind hhead
      cases h
      obtain ⟨n, used, hn, hts, hused⟩ := hread.list hitems
      exact ⟨closing, hkind, n, used, hn, hts, hused.items⟩
    · cases h

end Lists

section Brackets

variable {read : ExpressionReader} {limit : Nat} (hread : Sound read limit)

include hread

/-- What is read as indexes are indexes of the receiver, by strong induction on the number of
tokens: each pair of brackets makes the receiver of the next. -/
theorem Sound.indexes {receiver e : Expr} {ts rest : List Token}
    (h : seen (indexes read receiver ts) = .ok (e, rest)) :
    Took (.indexes receiver e) (limit + 1) ts rest := by
  induction hlength : ts.length using Nat.strongRecOn generalizing receiver ts with
  | ind length ih =>
    cases ts with
    | nil =>
      rw [seen_indexes_nil] at h
      cases h
      exact ⟨1, [], by omega, rfl, .noIndex⟩
    | cons opening ts =>
      rw [seen_indexes_cons] at h
      split at h
      · rename_i hopening
        obtain ⟨⟨first, afterFirst⟩, hfirst, hnext⟩ := bind_eq_ok_iff.1 h
        have hshort := length_lt_of_seen hfirst
        simp only [List.length_cons] at hlength
        rw [seen_offset] at hfirst
        split at hfirst
        · cases hfirst
        · obtain ⟨closing, hclosing, m, used, hm, rfl, hused⟩ := hread.closed hfirst
          obtain ⟨n, others, hn, rfl, hothers⟩ := ih afterFirst.length (by omega) hnext rfl
          exact ⟨max (m + 1) n, opening :: (used ++ closing :: others), by omega, by simp,
            hused.index hopening hclosing hothers⟩
      · cases h
        exact ⟨1, [], by omega, rfl, .noIndex⟩

/-- What is read as dimensions are dimensions, by strong induction on the number of tokens: each
pair of brackets leaves fewer of them. -/
theorem Sound.dimensions {sizes : List (Option Expr)} {ts rest : List Token}
    (h : seen (dimensions read ts) = .ok (sizes, rest)) :
    Took (.dimensions sizes) (limit + 1) ts rest := by
  induction hlength : ts.length using Nat.strongRecOn generalizing sizes ts rest with
  | ind length ih =>
    cases ts with
    | nil =>
      rw [seen_dimensions_nil] at h
      cases h
      exact ⟨1, [], by omega, rfl, .noDimension⟩
    | cons opening ts =>
      rw [seen_dimensions_cons] at h
      split at h
      · rename_i hopening
        obtain ⟨⟨first, afterFirst⟩, hfirst, h⟩ := bind_eq_ok_iff.1 h
        obtain ⟨⟨others, afterOthers⟩, hothers, h⟩ := bind_eq_ok_iff.1 h
        cases h
        have hshort := length_lt_of_seen hfirst
        simp only [List.length_cons] at hlength
        obtain ⟨n, inner, hn, hinnerEq, hinner⟩ := ih afterFirst.length (by omega) hothers rfl
        subst hinnerEq
        rw [seen_size] at hfirst
        split at hfirst
        · rename_i hhead
          obtain ⟨closing, after, rfl, hclosing⟩ := eq_cons_of_headKind hhead
          cases hfirst
          exact ⟨n, opening :: closing :: inner, hn, rfl, hinner.unsized hopening hclosing⟩
        · obtain ⟨⟨size, afterSize⟩, hsize, hfirst⟩ := bind_eq_ok_iff.1 hfirst
          cases hfirst
          obtain ⟨closing, hclosing, m, used, hm, rfl, hused⟩ := hread.closed hsize
          exact ⟨max (m + 1) n, opening :: (used ++ closing :: inner), by omega, by simp,
            hused.sized hopening hclosing hinner⟩
      · cases h
        exact ⟨1, [], by omega, rfl, .noDimension⟩

/-- What is read as arguments are arguments, or there are none. -/
theorem Sound.arguments {args : Option (List Expr)} {ts rest : List Token}
    (h : seen (arguments? read ts) = .ok (args, rest)) :
    Took (.arguments args) (limit + 1) ts rest := by
  cases ts with
  | nil =>
    cases h
    exact ⟨1, [], by omega, rfl, .noArguments⟩
  | cons opening ts =>
    rw [seen_arguments_cons] at h
    split at h
    · rename_i hopening
      obtain ⟨⟨items, afterItems⟩, hitems, h⟩ := bind_eq_ok_iff.1 h
      cases h
      obtain ⟨closing, hclosing, n, used, hn, rfl, hused⟩ := hread.enclosed hitems
      exact ⟨n, opening :: (used ++ [closing]), hn, by simp, hused.arguments hopening hclosing⟩
    · cases h
      exact ⟨1, [], by omega, rfl, .noArguments⟩

end Brackets

/-- A reader of what follows a name that takes only phrases of at most `limit` levels. -/
def SoundLink (link : LinkReader) (limit : Nat) : Prop :=
  ∀ (receiver : Option Expr) (name : Token) {ts e rest},
    seen (link (named receiver name none) (fun args => named receiver name (some args)) ts) =
      .ok (e, rest) →
    Took (.chain receiver name e) limit ts rest

section Members

variable {ending : Defect Malformed}

/-- What is read behind a dot is a member of the receiver, with the links behind it. -/
theorem member_sound {deeper : Option LinkReader} {limit : Nat}
    (hdeeper : ∀ link, deeper = some link → SoundLink link limit) {receiver e : Expr}
    {ts rest : List Token} (h : seen (member ending deeper receiver ts) = .ok (e, rest)) :
    Took (.member receiver e) (limit + 1) ts rest := by
  by_cases hpoint : headKind ts = some .dot
  · obtain ⟨point, after, rfl, hkind⟩ := eq_cons_of_headKind hpoint
    cases after with
    | nil =>
      simp only [member, if_pos hkind, seen_error] at h
      cases h
    | cons name after =>
      rw [seen_member_name ending deeper receiver hkind] at h
      split at h
      · rename_i hname
        cases deeper with
        | none => cases h
        | some link =>
          obtain ⟨n, used, hn, rfl, hused⟩ := hdeeper link rfl (some receiver) name h
          exact ⟨n + 1, point :: name :: used, by omega, rfl, hused.member hkind hname⟩
      · cases h
  · rw [seen_member_other ending deeper receiver hpoint] at h
    cases h
    exact ⟨1, [], by omega, rfl, .noMember⟩

/-- What a name makes, by whether arguments follow it. -/
theorem elim_eq_named (receiver : Option Expr) (name : Token) (args : Option (List Expr)) :
    args.elim (named receiver name none) (fun args => named receiver name (some args)) =
      named receiver name args := by
  cases args <;> rfl

/-- What a type name makes, by whether arguments follow it. -/
theorem elim_eq_typed (t : Token) (name : Primitive) (sizes : List (Option Expr))
    (args : Option (List Expr)) :
    args.elim (typeName name sizes t.position) (convert name sizes · t.position) =
      typed t name sizes args := by
  cases args <;> rfl

/-- What is read as a link of a chain is one, if expressions and deeper links are read soundly. -/
theorem linkWith_sound {read : ExpressionReader} {deeper : Option LinkReader} {limit : Nat}
    (hread : Sound read limit) (hdeeper : ∀ link, deeper = some link → SoundLink link limit) :
    SoundLink (linkWith ending read deeper) (limit + 1) := by
  intro receiver name ts e rest h
  rw [seen_linkWith] at h
  obtain ⟨⟨args, afterArgs⟩, hargs, hnext⟩ := bind_eq_ok_iff.1 h
  obtain ⟨⟨indexed, afterIndexes⟩, hindexes, hmember⟩ := bind_eq_ok_iff.1 hnext
  rw [elim_eq_named] at hindexes
  obtain ⟨l, front, hl, rfl, hfront⟩ := hread.arguments hargs
  obtain ⟨m, middle, hm, rfl, hmiddle⟩ := hread.indexes hindexes
  obtain ⟨n, back, hn, rfl, hback⟩ := member_sound hdeeper hmember
  exact ⟨max l (max m n), front ++ (middle ++ back), by omega, by simp, hfront.link hmiddle hback⟩

end Members

/-- The steps behind an operand belong to it. -/
theorem stepsAfter_sound {e : Expr} {n : Nat} {used : List Token} (h : Derives (.stepped e) n used)
    (ts : List Token) :
    ∃ steps, ts = steps ++ (stepsAfter e ts).rest ∧
      Derives (.stepped (stepsAfter e ts).value) n (used ++ steps) := by
  induction ts generalizing e used with
  | nil => exact ⟨[], rfl, by simpa [stepsAfter] using h⟩
  | cons t ts ih =>
    rw [stepsAfter]
    split
    · rename_i op hkind
      obtain ⟨steps, hsteps, hall⟩ := ih (h.stepAfter hkind)
      exact ⟨t :: steps, congrArg (t :: ·) hsteps, by simpa using hall⟩
    · exact ⟨[], rfl, by simpa using h⟩

/-- The readers of a level take only phrases that the level allows. -/
structure SoundLevel (level : Level) (limit : Nat) : Prop where
  expression : Sound level.expression limit
  link : SoundLink level.link (limit + 1)

section Operands

variable {ending : Defect Malformed} {below : Level} {limit : Nat} (hbelow : SoundLevel below limit)

include hbelow

/-- What is read as an operand is one, whatever its first token is: one rule of the grammar for each
kind of token that may start an operand. -/
theorem SoundLevel.operand {t : Token} {ts : List Token} {e : Expr} {rest : List Token}
    (h : seen (operand below t ts) = .ok (e, rest)) :
    Took (.primary e) (limit + 1) (t :: ts) rest := by
  have hcases := h
  rw [Expr.operand.eq_def] at hcases
  split at hcases <;> rename_i hkind
  · cases hcases
    exact ⟨1, [t], by omega, rfl, .number (.inl hkind)⟩
  · cases hcases
    exact ⟨1, [t], by omega, rfl, .number (.inr (.inl hkind))⟩
  · cases hcases
    exact ⟨1, [t], by omega, rfl, .number (.inr (.inr hkind))⟩
  · cases hcases
    exact ⟨1, [t], by omega, rfl, .bool hkind⟩
  · split at hcases
    · rename_i c hc
      cases hcases
      exact ⟨1, [t], by omega, rfl, .char hkind hc⟩
    · cases hcases
  · cases hcases
    exact ⟨1, [t], by omega, rfl, .string hkind⟩
  · cases hcases
    exact ⟨1, [t], by omega, rfl, .null hkind⟩
  · rw [seen_operand_identifier below hkind] at h
    obtain ⟨n, used, hn, rfl, hused⟩ := hbelow.link none t h
    exact ⟨n, t :: used, hn, rfl, hused.chain hkind⟩
  · rw [seen_operand_type below hkind] at h
    obtain ⟨⟨sizes, afterSizes⟩, hsizes, hnext⟩ := bind_eq_ok_iff.1 h
    obtain ⟨⟨args, afterArgs⟩, hargs, hdone⟩ := bind_eq_ok_iff.1 hnext
    cases hdone
    obtain ⟨m, front, hm, rfl, hfront⟩ := hbelow.expression.dimensions hsizes
    obtain ⟨n, back, hn, rfl, hback⟩ := hbelow.expression.arguments hargs
    rw [elim_eq_typed]
    exact ⟨max m n, t :: (front ++ back), by omega, by simp, hfront.type hkind hback⟩
  · rw [seen_operand_parenthesis below hkind] at h
    obtain ⟨closing, hclosing, n, used, hn, rfl, hused⟩ := hbelow.expression.closed h
    exact ⟨n + 1, t :: (used ++ [closing]), by omega, by simp, hused.parenthesised hkind hclosing⟩
  · rw [seen_operand_bracket below hkind] at h
    obtain ⟨⟨es, afterElements⟩, helements, hdone⟩ := bind_eq_ok_iff.1 h
    cases hdone
    obtain ⟨closing, hclosing, n, used, hn, rfl, hused⟩ := hbelow.expression.enclosed helements
    exact ⟨n, t :: (used ++ [closing]), hn, by simp, hused.array hkind hclosing⟩
  · cases hcases
  · cases hcases

/-- What is read as signs and an operand is such a phrase, with the steps behind it. -/
theorem SoundLevel.unaryOperand {ts : List Token} {e : Expr} {rest : List Token}
    (h : seen (unaryOperand ending below ts) = .ok (e, rest)) :
    Took (.unary e) (limit + 1) ts rest := by
  cases ts with
  | nil => cases h
  | cons t ts =>
    cases hlead : leading? t.kind with
    | none =>
      rw [seen_unaryOperand_other ending below hlead] at h
      obtain ⟨⟨inner, afterInner⟩, hinner, hdone⟩ := bind_eq_ok_iff.1 h
      cases hdone
      obtain ⟨n, used, hn, hts, hused⟩ := hbelow.operand hinner
      obtain ⟨steps, hsteps, hall⟩ := stepsAfter_sound hused.primary afterInner
      refine ⟨n, used ++ steps, hn, ?_, hall.stepped⟩
      rw [hts, List.append_assoc, ← hsteps]
    | some build =>
      rw [seen_unaryOperand_leading ending below hlead] at h
      obtain ⟨⟨inner, afterInner⟩, hinner, hdone⟩ := bind_eq_ok_iff.1 h
      cases hdone
      obtain ⟨n, used, hn, rfl, hused⟩ := hbelow.expression.unary hinner (by decide)
      refine ⟨n + 1, t :: used, by omega, rfl, ?_⟩
      unfold leading? at hlead
      split at hlead <;> cases hlead <;> rename_i hkind
      · exact hused.plus hkind
      · exact hused.minus hkind
      · exact hused.not hkind
      · exact hused.stepBefore hkind

/-- Behind an expression of tier `k`, the operators that bind tighter than the floor make an
expression of the tier that the floor stands for. -/
theorem SoundLevel.binaryTail {floor k : Nat} {left : Expr} {whole ts : List Token}
    (hleft : Took (.tier k left) (limit + 1) whole ts) (hk : floor ≤ k) (hts : Bounded (k + 1) ts)
    {e : Expr} {rest : List Token}
    (h : seen (binaryTail below.expression floor left ts) = .ok (e, rest)) :
    Bounded floor rest ∧ Took (.tier floor e) (limit + 1) whole rest := by
  induction hlength : ts.length using Nat.strongRecOn generalizing k left ts with
  | ind length ih =>
    by_cases hstop : Bounded floor ts
    · rw [seen_binaryTail_stop below.expression left hstop] at h
      cases h
      obtain ⟨n, used, hn, rfl, hused⟩ := hleft
      exact ⟨hstop, n, used, hn, rfl, hused.loosen hk⟩
    · simp only [Bounded, Classical.not_forall, Nat.not_le] at hstop
      obtain ⟨op, hhead, hfloor⟩ := hstop
      obtain ⟨t, ts, rfl, hkind⟩ := eq_cons_of_headKind hhead
      have hbound := op.precedence_bounds
      have hop := hts op hhead
      rw [seen_binaryTail_operator below.expression left hkind hfloor] at h
      obtain ⟨⟨right, afterRight⟩, hright, hnext⟩ := bind_eq_ok_iff.1 h
      have hshort := length_lt_of_seen hright
      simp only [List.length_cons] at hlength
      -- The operator is of a tier between the floor and `k`, so `left` is its left operand whole.
      obtain ⟨j, hj⟩ : ∃ j, op.precedence = j + 1 := ⟨op.precedence - 1, by omega⟩
      rw [hj] at hright
      have hstops := hbelow.expression.stops hright
      obtain ⟨m, front, hm, rfl, hfront⟩ := hleft
      obtain ⟨n, back, hn, rfl, hback⟩ := hbelow.expression.tier hright (by simp only [tierCount]; omega)
      have hjoined := (hfront.loosen (show j ≤ k by omega)).binary (mem_tier_iff.2 hj) hkind hback
      refine ih afterRight.length (by omega) ⟨max m (n + 1), front ++ t :: back, by omega, by simp, hjoined⟩
        (by omega) hstops hnext rfl

omit hbelow in
/-- No operator binds tighter than the last tier. -/
theorem bounded_of_tierCount_le {floor : Nat} (h : tierCount ≤ floor) (ts : List Token) :
    Bounded floor ts := by
  intro op _
  have hbound := op.precedence_bounds
  simp only [tierCount] at h
  omega

/-- One more level on top of sound readers is sound: an operand, and behind it the loop over
operators, tier by tier. -/
theorem SoundLevel.expressionWith : Sound (expressionWith ending below) (limit + 1) := by
  have hloose : ∀ {floor ts e rest},
      seen (Expr.expressionWith ending below floor ts) = .ok (e, rest) → floor ≤ tierCount →
      Bounded floor rest ∧ Took (.tier floor e) (limit + 1) ts rest := by
    intro floor ts e rest h hfloor
    rw [seen_expressionWith] at h
    obtain ⟨⟨left, afterLeft⟩, hleft, hnext⟩ := bind_eq_ok_iff.1 h
    obtain ⟨n, used, hn, hts, hused⟩ := hbelow.unaryOperand hleft
    exact hbelow.binaryTail ⟨n, used, hn, hts, hused.unary⟩ hfloor
      (bounded_of_tierCount_le (by omega) afterLeft) hnext
  have htight : ∀ {floor ts e rest},
      seen (Expr.expressionWith ending below floor ts) = .ok (e, rest) → tierCount ≤ floor →
      Took (.unary e) (limit + 1) ts rest := by
    intro floor ts e rest h hfloor
    rw [seen_expressionWith] at h
    obtain ⟨⟨left, afterLeft⟩, hleft, hnext⟩ := bind_eq_ok_iff.1 h
    simp only [seen_binaryTail_stop below.expression left (bounded_of_tierCount_le hfloor afterLeft)]
      at hnext
    cases hnext
    exact hbelow.unaryOperand hleft
  refine ⟨fun {floor ts e rest} h => ?_, fun h hfloor => (hloose h hfloor).2, htight⟩
  rcases Nat.le_total floor tierCount with hfloor | hfloor
  · exact (hloose h hfloor).1
  · exact bounded_of_tierCount_le hfloor rest

end Operands

/-- Where no level is left, nothing is taken. -/
theorem refuse_sound (ending : Defect Malformed) : Sound (refuse ending) 0 := by
  have hnone : ∀ {floor ts e rest}, seen (refuse ending floor ts) ≠ .ok (e, rest) := by
    intro floor ts e rest h
    cases ts <;> cases h
  exact ⟨fun h => absurd h hnone, fun h => absurd h hnone, fun h => absurd h hnone⟩

/-- The readers of every level are sound, by induction on the levels that are left. -/
theorem level_sound (ending : Defect Malformed) (depth : Nat) :
    SoundLevel (level ending depth) depth := by
  induction depth with
  | zero =>
    refine ⟨refuse_sound ending, linkWith_sound (refuse_sound ending) ?_⟩
    intro link hlink
    cases hlink
  | succ depth ih =>
    refine ⟨ih.expressionWith, linkWith_sound ih.expressionWith ?_⟩
    intro link hlink
    cases hlink
    exact ih.link

/-- A run that is read as an expression is one by the grammar. -/
theorem derives_of_parse {run : List Token} {e : Expr} (h : parse run = .ok e) :
    ∃ n ≤ maxNesting, Derives (.tier 0 e) n (body run) := by
  rw [parse_eq] at h
  obtain ⟨⟨value, rest⟩, hread, hcomplete⟩ := bind_eq_ok_iff.1 h
  cases rest with
  | cons t rest => cases hcomplete
  | nil =>
    cases hcomplete
    obtain ⟨n, used, hn, hbody, hused⟩ :=
      (level_sound (endingOf run) maxNesting).expression.tier hread (by decide)
    rw [List.append_nil] at hbody
    exact ⟨n, hn, hbody ▸ hused⟩

/-- A reading that is complete leaves nothing over. -/
theorem seen_of_complete {α : Type} {bound : Nat} {reading : Reading α bound} {value : α}
    (h : reading >>= complete = .ok value) : seen reading = .ok (value, []) := by
  obtain ⟨taken, rfl, hcomplete⟩ := bind_eq_ok_iff.1 h
  unfold complete at hcomplete
  split at hcomplete
  · rename_i hrest
    cases hcomplete
    rw [seen_ok, hrest]
  · cases hcomplete

/-- A run that is read as expressions between commas is a list of them by the grammar. -/
theorem derives_of_parseList {run : List Token} {es : List Expr} (h : parseList run = .ok es) :
    ∃ n ≤ maxNesting + 1, Derives (.list es) n (body run) := by
  obtain ⟨n, used, hn, hbody, hused⟩ :=
    (level_sound (endingOf run) maxNesting).expression.list (seen_of_complete h)
  rw [List.append_nil] at hbody
  exact ⟨n, hn, hbody ▸ hused⟩

/-- A run that is read as a type is a type name with brackets behind it. -/
theorem derives_of_parseType {run : List Token} {e : Expr} (h : parseType run = .ok e) :
    ∃ t name sizes ts, body run = t :: ts ∧ t.kind = .type name ∧
      e = typeName name sizes t.position ∧
      ∃ n ≤ maxNesting + 1, Derives (.dimensions sizes) n ts := by
  unfold parseType at h
  split at h
  · cases h
  · rename_i t rest hbody
    split at h
    · rename_i name hkind
      obtain ⟨sizes, hsizes, hcomplete⟩ := bind_eq_ok_iff.1 h
      unfold complete at hcomplete
      split at hcomplete
      · rename_i hrest
        cases hcomplete
        have hseen : seen (dimensions (readers run).expression rest) = .ok (sizes.value, []) := by
          rw [hsizes, seen_ok]
          exact congrArg (fun left => Except.ok (sizes.value, left)) hrest
        obtain ⟨n, used, hn, heq, hused⟩ :=
          (level_sound (endingOf run) maxNesting).expression.dimensions hseen
        rw [List.append_nil] at heq
        exact ⟨t, name, sizes.value, rest, hbody, hkind, rfl, n, hn, heq ▸ hused⟩
      · cases hcomplete
    · cases h

end Sprout.Expr
