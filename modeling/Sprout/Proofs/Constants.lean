import Sprout.Proofs.Conversions
import Sprout.Proofs.Floating.Rounding
import Sprout.Proofs.Statements.Spelling

namespace Sprout

/-- What a place holds is not changed by storing it in a place of the same type. -/
theorem Constant.convert_convert {c converted : Constant} {type : Ty}
    (h : c.convert type = some converted) : converted.convert type = some converted := by
  unfold convert at h
  split at h
  · obtain ⟨value, -, rfl⟩ := Option.map_eq_some_iff.1 h
    simp [convert, toDouble?, Floating.Format.recast_idempotent]
  · obtain ⟨value, -, rfl⟩ := Option.map_eq_some_iff.1 h
    rfl
  · split at h <;> cases h <;> rfl
  · split at h
    · cases h
      rfl
    · obtain ⟨-, heq⟩ := Option.ite_none_right_eq_some.1 h
      cases heq
      rfl
    · cases h
  · split at h <;> cases h
    rfl
  · split at h
    · cases h
    · obtain ⟨-, heq⟩ := Option.ite_none_right_eq_some.1 h
      cases heq
      rw [convert] <;> assumption
  · cases h

namespace Expr

/-- An expression can be read from a run of tokens: as a whole, in a list, or as a size in a type. -/
inductive ReadFrom (run : List Token) (e : Expr) : Prop
  | whole (h : parse run = .ok e)
  | listed {es : List Expr} (h : parseList run = .ok es) (hmem : e ∈ es)
  | size {type : Expr} (h : parseType run = .ok type) (hmem : e ∈ type.children)

/-- What is read from tokens is an expression that can be read, whatever stands in front of it in
its statement. -/
theorem ReadFrom.isRead {run : List Token} {e : Expr} (h : ReadFrom run e) : e.IsRead := by
  cases h with
  | whole h => exact .whole h
  | listed h hmem => exact .listed h hmem
  | size h hmem => exact .size h hmem

/-- What is read from named tokens is well spelled, since its names and numbers are lexemes. -/
theorem ReadFrom.wellSpelled {run : List Token} {e : Expr} (h : ReadFrom run e)
    (hrun : Token.Named run) : e.WellSpelled := by
  cases h with
  | whole h => exact wellSpelled_of_parse h hrun
  | listed h hmem => exact wellSpelled_of_parseList h hrun e hmem
  | size h hmem => exact wellSpelled_of_parseType h hrun e hmem

/-- Numbers that fit their types do so in every part of an expression, however deep. -/
theorem NumbersFit.within {part whole : Expr} (h : whole.NumbersFit) (hwithin : Within part whole) :
    part.NumbersFit := by
  induction hwithin with
  | self => exact h
  | child hchild _ ih => exact ih (h.child hchild)

/-- A known whole number is of an integer type and has at most 64 bits; so its opposite has at most
128, and is what a minus sign makes of it. -/
theorem opposite_of_value {scopes : Scopes} {e : Expr} {typed : Typed} {v : Int}
    (hscopes : scopes.Every Symbol.HoldsOwn) (hnumbers : e.NumbersFit)
    (h : (e.value scopes).outcome = .ok typed) (hconstant : typed.constant = some (.int v)) :
    typed.type.isInteger = true ∧ v.natAbs < 2 ^ 64 ∧ Constant.fit (-v) = some (-v) := by
  obtain ⟨p, htype, hinteger⟩ := exists_isInteger_of_value hscopes hnumbers h hconstant
  have hfits : scopes.Every Symbol.Fits := fun scope hscope entry hentry c hc =>
    (hscopes scope hscope entry hentry c hc).fits
  obtain ⟨inner, w, -, -, -, hholds, hv⟩ :=
    exists_of_value_unsigned hfits hnumbers h htype hinteger hconstant
  have hsmall : v.natAbs < 2 ^ 64 := by
    have hinner := Primitive.natAbs_lt_of_holdsInteger hholds
    rw [hv]
    split <;> omega
  refine ⟨by rw [htype]; exact hinteger, hsmall, ?_⟩
  rw [Constant.negate_eq hsmall, Constant.negate_eq_neg hsmall]

/-- What is typed behind an equal sign and has a known value is a value. -/
theorem value_of_initializer {scopes : Scopes} {e : Expr} {typed : Typed} {target : Option Ty}
    {c : Constant} (h : (e.initializer scopes target).outcome = .ok typed)
    (hconstant : typed.constant = some c) : (e.value scopes).outcome = .ok typed := by
  cases e with
  | null =>
    cases target with
    | none => cases h
    | some =>
      cases h
      cases hconstant
  | array elements position =>
    obtain ⟨element, type, texts, -, -, rfl⟩ := eq_of_initializer_array h
    cases hconstant
  | _ => exact h

end Expr

/-- Wherever a run has got to, storing the value of a constant in a place of its type does not
change it. -/
theorem Emission.convert_of_run {statements : List Statement} {deny : Bool} {e : Emission}
    (h : run deny {} statements = .ok e) :
    e.scopes.Every fun symbol => ∀ c, symbol.constant = some c → c.convert symbol.type = some c :=
  constants_of_run (P := fun c type => c.convert type = some c)
    (fun _ _ _ => Constant.convert_convert) h

/-- Wherever the emission of a source has got to, the constants of all open scopes have values that
places of their types hold. Whatever can be read from the tokens of the source, with all its parts,
is of an integer type if it is a known whole number there, and that number has at most 64 bits; so
its opposite does not leave 128 bits. -/
theorem Source.constants_in_range {source : Source} {tokens : List Token}
    {before after : List Statement} {deny : Bool} {e : Emission}
    (htokens : source.significant = .ok tokens)
    (hstatements : source.statements tokens = .ok (before ++ after))
    (hrun : Emission.run deny {} before = .ok e) :
    (∀ scope ∈ e.scopes.all, ∀ name symbol c, (name, symbol) ∈ scope.symbols →
        symbol.constant = some c → c.convert symbol.type = some c) ∧
      ∀ (run : List Token) (whole part : Expr), (∀ t ∈ run, t ∈ tokens) → whole.ReadFrom run →
        Expr.Within part whole → ∀ typed v,
          ((part.value e.scopes).outcome = .ok typed ∨
            ∃ target, (part.initializer e.scopes target).outcome = .ok typed) →
          typed.constant = some (.int v) →
            typed.type.isInteger = true ∧ v.natAbs < 2 ^ 64 ∧ Constant.fit (-v) = some (-v) := by
  refine ⟨fun scope hscope name symbol c hsymbol hc =>
    Emission.convert_of_run hrun scope hscope _ hsymbol c hc, ?_⟩
  intro run whole part htaken hread hwithin typed v htyped hconstant
  have hnamed : Token.Named run := by
    obtain ⟨all, hall, rfl, -⟩ := mem_of_statements htokens hstatements
    exact fun t ht => Token.isName_of_mem_scan hall t (List.mem_filter.1 (htaken t ht)).1
  have hnumbers := (hread.isRead.numbersFit (hread.wellSpelled hnamed)).within hwithin
  have hvalue : (part.value e.scopes).outcome = .ok typed := by
    rcases htyped with h | ⟨target, h⟩
    · exact h
    · exact Expr.value_of_initializer h hconstant
  exact Expr.opposite_of_value (Emission.holdOwn_of_run hrun) hnumbers hvalue hconstant

/-- A program with the opposite of the greatest constant of 64 bits. -/
private def greatestOpposite : Source :=
  ⟨"greatest", "const big:u64=18446744073709551615;main\x7bvar x=-big\x7d"⟩

/-- The constant is the greatest number of 64 bits. A sign takes its opposite out of the range of
every type of integers, and no further: the value the operand would have with the sign taken again
fits. -/
theorem greatestOpposite_in_range :
    ∃ tokens before after e whole typed, greatestOpposite.significant = .ok tokens ∧
      greatestOpposite.statements tokens = .ok (before ++ after) ∧
      Emission.run false {} before = .ok e ∧
      (∀ scope ∈ e.scopes.all, ∀ name symbol c, (name, symbol) ∈ scope.symbols →
        symbol.constant = some c → c.convert symbol.type = some c) ∧
      Expr.parse ((tokens.drop 12).take 2) = .ok whole ∧
      (whole.value e.scopes).outcome = .ok typed ∧
      typed.constant = some (.int (-18446744073709551615)) ∧
      typed.type.isInteger = true ∧ (-18446744073709551615 : Int).natAbs < 2 ^ 64 ∧
      Constant.fit (- -18446744073709551615) = some (- -18446744073709551615) := by
  have hseen : (do
      let tokens ← greatestOpposite.significant.toOption
      let statements ← (greatestOpposite.statements tokens).toOption
      let e ← (Emission.run false {} (statements.take 3)).toOption
      let whole ← (Expr.parse ((tokens.drop 12).take 2)).toOption
      let typed ← (whole.value e.scopes).outcome.toOption
      typed.constant) = some (.int (-18446744073709551615)) := by decide +kernel
  simp only [Option.bind_eq_bind, Option.bind_eq_some_iff] at hseen
  obtain ⟨tokens, htokens, statements, hstatements, e, hrun, whole, hparse, typed, htyped,
    hconstant⟩ := hseen
  replace htokens := eq_ok_of_toOption htokens
  replace hstatements := eq_ok_of_toOption hstatements
  replace hrun := eq_ok_of_toOption hrun
  replace hparse := eq_ok_of_toOption hparse
  replace htyped := eq_ok_of_toOption htyped
  rw [← List.take_append_drop 3 statements] at hstatements
  have htaken : ∀ t ∈ (tokens.drop 12).take 2, t ∈ tokens := fun t ht =>
    List.mem_of_mem_drop (List.mem_of_mem_take ht)
  obtain ⟨hscopes, hvalues⟩ := Source.constants_in_range htokens hstatements hrun
  exact ⟨tokens, _, _, e, whole, typed, htokens, hstatements, hrun, hscopes, hparse, htyped,
    hconstant, hvalues _ whole whole htaken (.whole hparse) .self typed _ (.inl htyped) hconstant⟩

end Sprout
