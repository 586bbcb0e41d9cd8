import Sprout.Proofs.Effects.Texts

namespace Sprout

namespace Effect

variable {E : Effect} {scopes : Scopes} {e : Expr} {typed inner left right : Typed} {n k : Nat}
  {p : Position}

/-- `Spells E text n`: there is a text, and it has the effect `n` times. -/
structure Spells (E : Effect) (text : String) (n : Nat) : Prop where
  nonempty : text.toList ≠ []
  adds : Adds E text.toList n

/-- The text of an operand is not empty. -/
theorem Spells.operand_ne_nil (h : Spells E typed.text n) (precedence : Nat) :
    (typed.operand precedence).toList ≠ [] := by
  unfold Typed.operand
  split
  · simp
  · exact h.nonempty

/-- A sign adds no effect. Two minus signs in a row are kept apart, so that they are not read as a
step. -/
theorem Spells.unary {op : UnaryOp} (h : Spells E inner.text n)
    (htyped : (Typed.applyUnary op inner p).outcome = .ok typed) : Spells E typed.text n := by
  obtain ⟨-, rfl⟩ := Typed.eq_of_applyUnary htyped
  have hoperand := h.adds.operand unaryPrecedence
  have hne := h.operand_ne_nil unaryPrecedence
  generalize inner.operand unaryPrecedence = text at hoperand hne ⊢
  refine ⟨by cases op <;> simp [UnaryOp.symbol], ?_⟩
  have hsigned : ∀ text : List Char, Adds E text n → text ≠ [] → text.head? ≠ some '+' →
      text.head? ≠ some '-' → Adds E (op.symbol.toList ++ text) n := by
    intro text ⟨m, hm, htext⟩ hne hplus hminus
    have hbehind : ∀ sign, text.head? ≠ some sign → E.reads (.sign sign) text = (m, n) :=
      fun sign hsign => by rw [reads_sign hne hsign, htext]
    refine ⟨m, hm, ?_⟩
    rw [← Nat.zero_add n]
    cases op with
    | plus => exact reads_append (show E.reads _ _ = (.sign '+', 0) from rfl) (hbehind '+' hplus)
    | minus => exact reads_append (show E.reads _ _ = (.sign '-', 0) from rfl) (hbehind '-' hminus)
    | not => exact reads_append (show E.reads _ _ = (.word [], 0) from rfl) htext
  rw [String.toList_append]
  split
  · simpa using hsigned _ hoperand.parenthesised (by simp) (by simp) (by simp)
  · rename_i hhead
    simp only [Bool.or_eq_true, decide_eq_true_eq, not_or] at hhead
    exact hsigned _ hoperand hne hhead.2 hhead.1

/-- A step adds one effect of stepping to those of its place, on whichever side of the place its
sign stands. -/
theorem Spells.step {op : StepOp} {after : Bool} (h : Spells E inner.text n)
    (htyped : (Typed.applyStep op after inner p).outcome = .ok typed) :
    Spells E typed.text ((if E = .step op then 1 else 0) + n) := by
  obtain ⟨-, -, -, rfl⟩ := Typed.eq_of_applyStep htyped
  have hstep : E.reads (.word []) op.symbol.toList =
      (.word [], if E = .step op then 1 else 0) := by
    cases op <;> rcases E with (_ | _) | _ | _ | _ | _ <;> rfl
  cases after with
  | false =>
    refine ⟨by cases op <;> simp [StepOp.symbol], ?_⟩
    simpa using Adds.behind hstep h.adds
  | true =>
    refine ⟨by cases op <;> simp [StepOp.symbol], ?_⟩
    rw [Nat.add_comm]
    cases op with
    | increment =>
      have hbehind : Adds E ['+', '+'] _ := .of_reads hstep
      simpa [StepOp.symbol] using h.adds.mark rfl hbehind
    | decrement =>
      have hbehind : Adds E ['-', '-'] _ := .of_reads hstep
      simpa [StepOp.symbol] using h.adds.mark rfl hbehind

/-- A sign stands between blanks. -/
theorem Adds.signed {text sign more : List Char} {c : Char} (h : Adds E text n)
    (hc : isMark c = true) (hsign : E.reads (.word []) (c :: (sign ++ [' '])) = (.word [], 0))
    (h' : Adds E more k) :
    Adds E (text ++ ([' '] ++ (c :: sign ++ ([' '] ++ more)))) (n + k) := by
  have hbehind := Adds.behind hsign h'
  rw [Nat.zero_add, List.cons_append, List.append_assoc] at hbehind
  exact h.blank_mark hc hbehind

/-- An operator between blanks adds no effect. -/
theorem Adds.operator {text more : List Char} (op : BinaryOp) (h : Adds E text n)
    (h' : Adds E more k) :
    Adds E (text ++ ([' '] ++ (op.symbol.toList ++ ([' '] ++ more)))) (n + k) := by
  have hsymbol : ∃ c symbol, op.symbol.toList = c :: symbol ∧ isMark c = true ∧
      E.reads (.word []) (c :: (symbol ++ [' '])) = (.word [], 0) := by
    rcases op with op | op | op <;> cases op <;> exact ⟨_, _, rfl, rfl, rfl⟩
  obtain ⟨c, symbol, hsymbol, hc, hreads⟩ := hsymbol
  rw [hsymbol]
  exact h.signed hc hreads h'

/-- What an operator joins has the effects of both operands, whether it is written between them or
as a call with both for arguments. -/
theorem Spells.binary {op : BinaryOp} (h : Spells E left.text n) (h' : Spells E right.text k)
    (htyped : (Typed.applyBinary op left right p).outcome = .ok typed) :
    Spells E typed.text (n + k) := by
  obtain ⟨type, -, rfl⟩ := Typed.eq_of_applyBinary htyped
  have hmod : E.reads (.word []) ("rt::mod" ++ "(").toList = (.word [], 0) := by
    rcases E with (_ | _) | _ | _ | _ | _ <;> rfl
  have hpow : E.reads (.word []) ("rt::pow" ++ "(").toList = (.word [], 0) := by
    rcases E with (_ | _) | _ | _ | _ | _ <;> rfl
  have hargs : Adds E (left.text ++ ", " ++ right.text).toList (n + k) := by
    simpa using h.adds.comma h'.adds
  unfold Typed.binaryText
  split
  · exact ⟨by simp, by simpa using Adds.call hmod hargs⟩
  · have hcall : Adds E ("rt::pow(" ++ left.text ++ ", " ++ right.text ++ ")").toList (n + k) := by
      simpa using Adds.call hpow hargs
    dsimp only
    split
    · refine ⟨by simp, ?_⟩
      simpa [Ty.target, Primitive.target] using hcall.cast .i64
    · exact ⟨by simp, hcall⟩
  · refine ⟨by simp, ?_⟩
    simpa using (h.adds.operand op.precedence).operator op (h'.adds.operand (op.precedence + 1))

/-- An element has the effects of its array and of its index. -/
theorem Spells.element {receiver offset : Typed} (h : Adds E receiver.text.toList n)
    (hoffset : Adds E offset.text.toList k)
    (htyped : (Typed.elementAt receiver offset p).outcome = .ok typed) :
    Spells E typed.text (n + k) := by
  obtain ⟨htext, -⟩ := Typed.elementAt_eq_ok htyped
  have hat : E.reads (.word []) ("at" ++ "(").toList = (.word [], 0) := by
    rcases E with (_ | _) | _ | _ | _ | _ <;> rfl
  rw [htext]
  refine ⟨by simp, ?_⟩
  simpa using Adds.member (h.operand atomPrecedence) hat hoffset

/-- The arguments of a call have the effects of each. -/
theorem adds_argumentText {args : List Typed} {es : List Expr}
    (h : List.Forall₂ (fun arg e => Spells E arg.text (E.total e)) args es) :
    Adds E (Typed.argumentText args).toList (E.totalOf es) := by
  refine adds_intercalate ?_
  rw [List.forall₂_map_left_iff]
  exact h.imp fun _ _ hspells => hspells.adds

/-- A call of a function has its own effect, if it is one that is counted, and those of its
arguments. -/
theorem Spells.function {name : String} {args : List Typed} {es : List Expr}
    (hargs : List.Forall₂ (fun arg e => Spells E arg.text (E.total e)) args es)
    (htyped : (Typed.callFunction name args p).outcome = .ok typed) :
    Spells E typed.text ((if E.callee? = some name then 1 else 0) + E.totalOf es) := by
  obtain ⟨resolved, hresolved, rfl⟩ := Typed.eq_of_callFunction htyped
  obtain ⟨b, hb, rfl, -, htarget, -⟩ := Signature.exists_builtin_of_resolve hresolved
  rw [htarget]
  exact ⟨by simp, Adds.call (reads_target hb) (adds_argumentText hargs)⟩

/-- A call of a method has its own effect, if it is one that is counted, and those of its receiver
and its arguments. -/
theorem Spells.method {receiver : Typed} {name : String} {args : List Typed} {es : List Expr}
    (h : Spells E receiver.text n)
    (hargs : List.Forall₂ (fun arg e => Spells E arg.text (E.total e)) args es)
    (htyped : (Typed.callMethod receiver name args p).outcome = .ok typed) :
    Spells E typed.text (n + ((if E.callee? = some name then 1 else 0) + E.totalOf es)) := by
  rcases Typed.eq_of_callMethod htyped with
    ⟨offset, rfl, rfl, helement⟩ | ⟨-, resolved, hresolved, -, rfl⟩
  · cases hargs with
    | @cons _ e _ es hoffset hrest =>
      cases hrest
      have hat : E.callee? ≠ some "at" := by rcases E with (_ | _) | _ | _ | _ | _ <;> decide
      simpa [hat, totalOf] using Spells.element h.adds hoffset.adds helement
  · obtain ⟨b, hb, rfl, -, htarget, -⟩ := Signature.exists_builtin_of_resolve hresolved
    rw [htarget]
    exact ⟨by simp, Adds.member (h.adds.operand atomPrecedence) (reads_target hb)
      (adds_argumentText hargs)⟩

/-- The word in front of a conversion calls nothing that is counted. -/
theorem reads_conversion {target : Primitive} {types : List Ty} {resolved : Resolved}
    (h : target.resolveConversion types = .ok resolved) :
    E.reads (.word []) (resolved.target ++ "(").toList = (.word [], 0) := by
  have htext : E.reads (.word []) ("rt::to_str" ++ "(").toList = (.word [], 0) := by
    rcases E with (_ | _) | _ | _ | _ | _ <;> rfl
  have hcast := reads_cast (E := E) (.primitive target)
  obtain ⟨source, -, -, -, rfl⟩ := Primitive.eq_of_resolveConversion h
  dsimp only
  split
  · exact htext
  · simpa [Ty.target] using hcast

/-- A conversion has the effects of its arguments. -/
theorem Spells.conversion {target : Primitive} {args : List Typed} {es : List Expr}
    (hargs : List.Forall₂ (fun arg e => Spells E arg.text (E.total e)) args es)
    (htyped : (Typed.convert target args p).outcome = .ok typed) :
    Spells E typed.text (E.totalOf es) := by
  obtain ⟨resolved, hresolved, rfl⟩ := Typed.eq_of_convert htyped
  refine ⟨by simp, ?_⟩
  simpa using Adds.call (reads_conversion hresolved) (adds_argumentText hargs)

/-- A literal has no effect. -/
theorem Spells.literal {literal : Literal}
    (htyped : (Typed.ofLiteral literal p).outcome = .ok typed) : Spells E typed.text 0 := by
  rcases Typed.eq_of_ofLiteral htyped with ⟨value, -, rfl⟩ | ⟨value, -, -, rfl⟩ | ⟨value, -, rfl⟩
  · cases value with
    | true => exact ⟨by simp, .of_isCalmText (show isCalmText "true".toList = true by rfl)⟩
    | false => exact ⟨by simp, .of_isCalmText (show isCalmText "false".toList = true by rfl)⟩
  · exact ⟨by simp [Target.charLiteral], adds_charLiteral _⟩
  · exact ⟨by simp [Target.stringLiteral], adds_stringLiteral _⟩

/-- A number is not written as nothing, of whatever type it is. So there is a character for what is
put in front of it to meet. -/
theorem number_ne_nil (number : Number) : number.target.toList ≠ [] := by
  have hint : ∀ value : Int, toString value ≠ "" := by
    intro value
    simp only [Int.toString_eq_repr, Int.repr_eq_if]
    split <;> simp
  have hwrite : ∀ (f : Floating.Format) value, f.write value ≠ "" := by
    intro f value
    unfold Floating.Format.write
    split
    · simp
    · split <;> simp
    · rename_i mantissa exponent
      intro hnil
      have hdigit := (isCalmText_layout .literal
        (if mantissa = 0 then ⟨0, 0⟩ else f.shortest mantissa exponent)).2
      rw [(String.append_eq_empty_iff.1 hnil).2] at hdigit
      cases hdigit
  rw [ne_eq, String.toList_eq_nil_iff]
  unfold Number.target
  split
  · simp
  · simp
  · simp
  · cases number with
    | integer type value => exact hint value
    | single value => simp [Number.render]
    | double value => exact hwrite _ value

/-- A number has no effect. -/
theorem Spells.number {number : Number} (htyped : (Typed.ofNumber number p).outcome = .ok typed) :
    Spells E typed.text 0 := by
  obtain ⟨_, rfl⟩ := Typed.eq_of_ofNumber htyped
  exact ⟨number_ne_nil number, .of_isCalmText (isCalmText_number number)⟩

/-- A name has no effect. -/
theorem Spells.name {name : String} (hname : Token.IsName name)
    (htyped : (Typed.ofName scopes name p).outcome = .ok typed) : Spells E typed.text 0 := by
  obtain ⟨symbol, -, rfl⟩ := Typed.eq_of_ofName htyped
  refine ⟨?_, .of_isCalmText (isCalmText_of_isNamePart (isNamePart_targetName hname))⟩
  obtain ⟨c, more, rfl, -⟩ := hname.spelled
  unfold Target.name
  split <;> simp

/-- The values of several expressions. -/
theorem spells_of_values {es : List Expr} {results : List Typed}
    (hvalue : ∀ e ∈ es, ∀ typed, (e.value scopes).outcome = .ok typed →
      Spells E typed.text (E.total e))
    (h : (Expr.values scopes es).outcome = .ok results) :
    List.Forall₂ (fun arg e => Spells E arg.text (E.total e)) results es :=
  (Expr.forall₂_values (R := fun e arg => Spells E arg.text (E.total e)) hvalue h).flip

/-- The text of a value has an effect as often as the expression. By induction on the expression,
one case for each step of typing: what a step adds to the texts of its parts is the effect of its
own. -/
theorem spells_of_value (hspelled : e.WellSpelled) (h : (e.value scopes).outcome = .ok typed) :
    Spells E typed.text (E.total e) := by
  induction e using Expr.inductionOnChildren generalizing typed with
  | step e ih =>
    have hvalue : ∀ part ∈ e.children, ∀ typed, (part.value scopes).outcome = .ok typed →
        Spells E typed.text (E.total part) :=
      fun part hpart typed h => ih part hpart (hspelled.child hpart) h
    rw [total_eq]
    cases Expr.ValueStep.of_value h with
    | number hnumber => exact Spells.number hnumber
    | literal hliteral => exact Spells.literal hliteral
    | ident hname => exact Spells.name (hspelled _ .self) hname
    | call hargs hcall => exact Spells.function (spells_of_values hvalue hargs) hcall
    | index hwhole hselected helement =>
      have hreceiver := hvalue _ (by simp [Expr.children]) _ hwhole
      have hoffset := hvalue _ (by simp [Expr.children]) _ hselected
      simpa [own, Expr.children, totalOf] using
        Spells.element hreceiver.adds hoffset.adds helement
    | method hwhole hargs hcall =>
      rw [Expr.children, List.forall_mem_cons] at hvalue
      have hmethod := Spells.method (hvalue.1 _ hwhole) (spells_of_values hvalue.2 hargs) hcall
      simpa [own, Expr.children, totalOf, Nat.add_left_comm] using hmethod
    | convert hargs hconvert =>
      rw [Expr.children, List.reduceOption_nil, List.append_nil] at hvalue
      simpa [own, Expr.children] using Spells.conversion (spells_of_values hvalue hargs) hconvert
    | unary hinner hunary =>
      have hoperand := hvalue _ (by simp [Expr.children]) _ hinner
      simpa [own, Expr.children, totalOf] using hoperand.unary hunary
    | stepBefore hinner hstep | stepAfter hinner hstep =>
      have hoperand := hvalue _ (by simp [Expr.children]) _ hinner
      simpa [own, Expr.children, totalOf] using hoperand.step hstep
    | binary hfirst hsecond hbinary =>
      have hleft := hvalue _ (by simp [Expr.children]) _ hfirst
      have hright := hvalue _ (by simp [Expr.children]) _ hsecond
      simpa [own, Expr.children, totalOf] using hleft.binary hright hbinary

/-- A conversion adds no effect. -/
theorem Spells.converted {type : Ty} {text : String} (h : Spells E typed.text n)
    (htext : (typed.converted type p).outcome = .ok text) : Spells E text n := by
  rcases Typed.converted_eq_ok htext with rfl | rfl
  · exact h
  · refine ⟨by simp, ?_⟩
    simpa using h.adds.cast type

/-- The elements of an array have the effects of each. -/
theorem adds_elementTexts {element : Ty} {es : List Expr} {texts : List String}
    (hinitial : ∀ e ∈ es, ∀ typed, (e.initializer scopes (some element)).outcome = .ok typed →
      Spells E typed.text (E.total e))
    (h : (Expr.elementTexts scopes element es).outcome = .ok texts) :
    Adds E (", ".intercalate texts).toList (E.totalOf es) := by
  refine adds_intercalate ?_
  induction es generalizing texts with
  | nil =>
    cases h
    exact .nil
  | cons e es ih =>
    rw [List.forall_mem_cons] at hinitial
    simp only [Expr.elementTexts, Checked.outcome_bind_eq_ok_iff] at h
    obtain ⟨typed, htyped, text, htext, others, hothers, heq⟩ := h
    cases heq
    exact .cons ((hinitial.1 _ htyped).converted htext).adds (ih hinitial.2 hothers)

/-- The text of what stands behind an equal sign has an effect as often as the expression. -/
theorem spells_of_initializer {target : Option Ty} (hspelled : e.WellSpelled)
    (h : (e.initializer scopes target).outcome = .ok typed) : Spells E typed.text (E.total e) := by
  induction e using Expr.inductionOnChildren generalizing typed target with
  | step e ih =>
    cases e with
    | null p =>
      unfold Expr.initializer at h
      split at h
      · cases h
        rw [total_eq]
        exact ⟨by simp, .of_isCalmText (show isCalmText "\x7b\x7d".toList = true by rfl)⟩
      · simp at h
    | array elements p =>
      obtain ⟨element, type, texts, -, htexts, rfl⟩ := Expr.eq_of_initializer_array h
      have hinner := adds_elementTexts (fun e he typed h => ih e he (hspelled.child he) h) htexts
      have hopening : E.reads (.word []) "\x7b".toList = (.word [], 0) := rfl
      have hclosing : Adds E ['\x7d'] 0 := .of_isCalmText rfl
      refine ⟨by simp, ?_⟩
      have hall := Adds.behind hopening (hinner.mark rfl hclosing)
      rw [total_eq]
      simpa [own, Expr.children] using hall
    | _ =>
      have hvalue : (Expr.value scopes _).outcome = .ok typed := h
      exact spells_of_value hspelled hvalue

/-- What is known without running the program has no effect. By induction on the expression: steps,
and calls other than conversions, never give a known value. -/
theorem total_eq_zero_of_constant (h : (e.value scopes).outcome = .ok typed)
    (hconstant : typed.constant.isSome = true) : E.total e = 0 := by
  induction e using Expr.inductionOnChildren generalizing typed with
  | step e ih =>
    rw [total_eq]
    cases Expr.ValueStep.of_value h with
    | number | literal | ident => rfl
    | call _ hcall =>
      obtain ⟨_, -, rfl⟩ := Typed.eq_of_callFunction hcall
      cases hconstant
    | index _ _ helement =>
      obtain ⟨-, _, -, rfl⟩ := Typed.eq_of_elementAt helement
      cases hconstant
    | method _ _ hcall =>
      rcases Typed.eq_of_callMethod hcall with ⟨_, -, -, helement⟩ | ⟨-, _, -, -, rfl⟩
      · obtain ⟨-, _, -, rfl⟩ := Typed.eq_of_elementAt helement
        cases hconstant
      · cases hconstant
    | convert hargs hconvert =>
      obtain ⟨resolved, hresolved, rfl⟩ := Typed.eq_of_convert hconvert
      rw [Expr.children, List.reduceOption_nil, List.append_nil] at ih
      cases Expr.forall₂_of_values hargs with
      | nil => cases hconstant
      | @cons first arg args results hfirst hrest =>
        -- A conversion has one argument, and knows its value only if it knows that of the argument.
        obtain ⟨source, htypes, -⟩ := Primitive.eq_of_resolveConversion hresolved
        have hnil : results = [] := List.map_eq_nil_iff.1 (List.cons.inj htypes).2
        subst hnil
        cases hrest
        have hknown : arg.constant.isSome = true := Option.isSome_of_isSome_bind hconstant
        have hfirst := ih first (by simp) hfirst hknown
        simp [own, Expr.children, totalOf, hfirst]
    | unary hinner hunary =>
      obtain ⟨-, rfl⟩ := Typed.eq_of_applyUnary hunary
      have hoperand := ih _ (by simp [Expr.children]) hinner (Option.isSome_of_isSome_bind hconstant)
      simp [own, Expr.children, totalOf, hoperand]
    | stepBefore _ hstep | stepAfter _ hstep =>
      obtain ⟨-, -, -, rfl⟩ := Typed.eq_of_applyStep hstep
      cases hconstant
    | @binary _ _ _ _ first second hfirst hsecond hbinary =>
      obtain ⟨type, -, rfl⟩ := Typed.eq_of_applyBinary hbinary
      have hknown : first.constant.isSome = true ∧ second.constant.isSome = true := by
        cases hleft : first.constant <;> cases hright : second.constant <;>
          simp [hleft, hright] at hconstant ⊢
      have hleft := ih _ (by simp [Expr.children]) hfirst hknown.1
      have hright := ih _ (by simp [Expr.children]) hsecond hknown.2
      simp [own, Expr.children, totalOf, hleft, hright]

/-- The sizes of a type have no effects, for they are known without running the program. -/
theorem totalOf_dimensioned {base type : Ty} {sizes : List (Option Expr)}
    (h : (Expr.dimensioned scopes base sizes).outcome = .ok type) :
    E.totalOf sizes.reduceOption = 0 := by
  induction sizes generalizing type with
  | nil => rfl
  | cons level sizes ih =>
    simp only [Expr.dimensioned, Checked.outcome_bind_eq_ok_iff] at h
    obtain ⟨element, helement, hlevel⟩ := h
    cases level with
    | none => exact ih helement
    | some outer =>
      simp only [Expr.dimension, Checked.outcome_bind_eq_ok_iff] at hlevel
      obtain ⟨_, ⟨typed, htyped, hsize⟩, -⟩ := hlevel
      split at hsize
      · rename_i n hconstant
        have hzero := total_eq_zero_of_constant (E := E) htyped (by simp [hconstant])
        rw [List.reduceOption_cons_of_some, totalOf, List.map_cons, List.sum_cons, hzero,
          Nat.zero_add]
        exact ih helement
      · simp at hsize

/-- A type has no effect, since the sizes in it are known without running the program. So leaving
them out drops none. -/
theorem total_of_resolveType {type : Ty} (h : (e.resolveType scopes).outcome = .ok type) :
    E.total e = 0 := by
  unfold Expr.resolveType at h
  split at h
  · simp at h
  · rw [total_eq]
    simpa [own, Expr.children] using totalOf_dimensioned h
  · simp at h

end Effect

end Sprout
