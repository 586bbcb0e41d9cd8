import Sprout.Proofs.Arguments.Values
import Sprout.Proofs.Names.Declarations
import Sprout.Proofs.Names.Words

namespace Sprout

open Target Code

/-- A text that starts like a value and mentions no temporary. -/
structure Target.IsValueText (text : String) : Prop where
  starts : startsValue text.toList = true
  sparing : IsSparing text.toList

namespace Target

variable {text more front callee : String}

/-- Two texts that mention no temporary mention none one behind the other. -/
theorem sparing_append (h : IsSparing text.toList) (hmore : IsSparing more.toList) :
    IsSparing (text ++ more).toList := by
  rw [String.toList_append]
  exact h.append hmore

/-- Texts that mention no temporary mention none with commas between them. -/
theorem sparing_intercalate {texts : List String} (h : ∀ text ∈ texts, IsSparing text.toList) :
    IsSparing (", ".intercalate texts).toList := by
  induction texts with
  | nil => exact .nil
  | cons text texts ih =>
    rw [List.forall_mem_cons] at h
    cases texts with
    | nil => simpa using h.1
    | cons next texts =>
      have hcomma : IsSparing ", ".toList := .of_isUnquoted rfl
      rw [String.intercalate_cons_cons]
      exact sparing_append (sparing_append h.1 hcomma) (ih h.2)

/-- Parentheses mention no temporary. -/
theorem sparing_parenthesised (h : IsSparing text.toList) : IsSparing ("(" ++ text ++ ")").toList :=
  sparing_append (sparing_append (.of_isUnquoted rfl) h) (.of_isUnquoted rfl)

/-- A value may have anything behind it that ends a word. -/
theorem IsValueText.append (h : IsValueText text) (hends : endsWord more.toList = true)
    (hmore : IsSparing more.toList) : IsValueText (text ++ more) := by
  refine ⟨?_, sparing_append h.sparing hmore⟩
  rw [String.toList_append]
  exact startsValue_append h.starts hends

/-- A line that starts with a value declares nothing, if what is behind the value ends a word. -/
theorem IsValueText.starts_behind (h : IsValueText text) (hfront : endsWord front.toList = true)
    (more : String) : startsValue (text ++ (front ++ more)).toList = true := by
  rw [String.toList_append, String.toList_append]
  exact startsValue_append h.starts (endsWord_append hfront)

/-- What starts with a word that has ended is a value, whatever follows. -/
theorem IsValueText.behind (hends : endsWord (behindWord front.toList) = true)
    (hfront : IsSparing front.toList) (h : IsSparing text.toList) : IsValueText (front ++ text) := by
  refine ⟨?_, sparing_append hfront h⟩
  rw [String.toList_append]
  exact startsValue_of_endsWord hends

/-- What can be called: a text that declares nothing in front of a parenthesis. -/
structure IsCallee (callee : String) : Prop where
  ends : endsWord (behindWord (callee ++ "(").toList) = true
  sparing : IsSparing callee.toList

/-- Every builtin can be called. -/
theorem isCallee_builtin : ∀ b ∈ Builtin.all, IsCallee b.target := by
  have hall : Builtin.all.all (fun b => endsWord (behindWord (b.target ++ "(").toList) &&
      (b.target.toList.all isUnquoted && spares false b.target.toList)) = true := by rfl
  intro b hb
  obtain ⟨hends, hsparing⟩ := Bool.and_eq_true_iff.1 (List.all_eq_true.1 hall b hb)
  exact ⟨hends, .of_isUnquoted hsparing⟩

/-- What stands in front of a conversion starts like a value. -/
theorem isCallee_conversion {target : Primitive} {types : List Ty} {resolved : Resolved}
    (h : target.resolveConversion types = .ok resolved) : IsCallee resolved.target := by
  obtain ⟨source, -, -, -, rfl⟩ := Primitive.eq_of_resolveConversion h
  exact ⟨by cases target <;> rfl, .of_isUnquoted (by cases target <;> rfl)⟩

end Target

namespace Typed

variable {typed inner left right receiver offset : Typed} {args : List Typed} {p : Position}

/-- An operand starts like a value, in parentheses or not. -/
theorem isValueText_operand (h : IsValueText typed.text) (precedence : Nat) :
    IsValueText (typed.operand precedence) := by
  unfold operand
  split
  · rw [String.append_assoc]
    exact .behind rfl (.of_isUnquoted rfl) (sparing_append h.sparing (.of_isUnquoted rfl))
  · exact h

/-- The arguments of a call, with the parentheses around them. -/
theorem sparing_arguments (h : ∀ arg ∈ args, IsValueText arg.text) :
    IsSparing (argumentText args ++ ")").toList := by
  refine sparing_append (sparing_intercalate fun text htext => ?_) (.of_isUnquoted rfl)
  obtain ⟨arg, harg, rfl⟩ := List.mem_map.1 htext
  exact (h arg harg).sparing

/-- A call starts like a value if what is called does. -/
theorem isValueText_call {callee : String} (hcallee : IsCallee callee)
    (hargs : ∀ arg ∈ args, IsValueText arg.text) :
    IsValueText (callee ++ "(" ++ argumentText args ++ ")") := by
  rw [String.append_assoc]
  exact .behind hcallee.ends (sparing_append hcallee.sparing (.of_isUnquoted rfl))
    (sparing_arguments hargs)

/-- An element starts like what it is an element of. -/
theorem isValueText_elementAt (hreceiver : IsValueText receiver.text)
    (hoffset : IsValueText offset.text) (h : (elementAt receiver offset p).outcome = .ok typed) :
    IsValueText typed.text := by
  rw [(elementAt_eq_ok h).1, String.append_assoc, String.append_assoc]
  have hat : IsSparing ".at(".toList := .of_isUnquoted rfl
  refine (isValueText_operand hreceiver _).append ?_
    (sparing_append hat (sparing_append hoffset.sparing (.of_isUnquoted rfl)))
  rw [String.toList_append]
  exact endsWord_append rfl

/-- A call of a method starts like its receiver, or is a call of a function. -/
theorem isValueText_callMethod {name : String} (hreceiver : IsValueText receiver.text)
    (hargs : ∀ arg ∈ args, IsValueText arg.text)
    (h : (callMethod receiver name args p).outcome = .ok typed) : IsValueText typed.text := by
  rcases eq_of_callMethod h with ⟨offset, -, rfl, helement⟩ | ⟨-, resolved, hresolved, -, rfl⟩
  · exact isValueText_elementAt hreceiver (hargs offset (by simp)) helement
  · obtain ⟨b, hb, -, -, htarget, -⟩ := Signature.exists_builtin_of_resolve hresolved
    have hmember := (isCallee_builtin b hb).sparing
    rw [← htarget] at hmember
    have hdot : IsSparing ".".toList := .of_isUnquoted rfl
    have hcall : IsSparing ("." ++ (resolved.target ++ ("(" ++ (argumentText args ++ ")")))).toList :=
      sparing_append hdot (sparing_append hmember
        (sparing_append (.of_isUnquoted rfl) (sparing_arguments hargs)))
    have hmethod := (isValueText_operand hreceiver atomPrecedence).append
      (by rw [String.toList_append]; exact endsWord_append rfl) hcall
    simpa only [String.append_assoc] using hmethod

/-- A sign starts no declaration. -/
theorem isValueText_applyUnary {op : UnaryOp} (hinner : IsValueText inner.text)
    (h : (applyUnary op inner p).outcome = .ok typed) : IsValueText typed.text := by
  obtain ⟨-, rfl⟩ := eq_of_applyUnary h
  have hoperand := (isValueText_operand hinner unaryPrecedence).sparing
  refine .behind (by cases op <;> rfl) (.of_isUnquoted (by cases op <;> rfl)) ?_
  split
  · exact sparing_parenthesised hoperand
  · exact hoperand

/-- A step starts no declaration. -/
theorem isValueText_applyStep {op : StepOp} {after : Bool} (hinner : IsValueText inner.text)
    (h : (applyStep op after inner p).outcome = .ok typed) : IsValueText typed.text := by
  obtain ⟨-, -, -, rfl⟩ := eq_of_applyStep h
  have hsymbol : IsSparing op.symbol.toList := .of_isUnquoted (by cases op <;> rfl)
  cases after with
  | true => exact hinner.append (by cases op <;> rfl) hsymbol
  | false => exact .behind (by cases op <;> rfl) hsymbol hinner.sparing

/-- What an operator joins starts like its left operand, or is a call of a function. -/
theorem isValueText_applyBinary {op : BinaryOp} (hleft : IsValueText left.text)
    (hright : IsValueText right.text) (h : (applyBinary op left right p).outcome = .ok typed) :
    IsValueText typed.text := by
  obtain ⟨type, -, rfl⟩ := eq_of_applyBinary h
  have hpair : IsSparing (left.text ++ (", " ++ (right.text ++ ")"))).toList :=
    sparing_append hleft.sparing (sparing_append (.of_isUnquoted rfl)
      (sparing_append hright.sparing (.of_isUnquoted rfl)))
  have hpow : IsValueText ("rt::pow(" ++ (left.text ++ (", " ++ (right.text ++ ")")))) :=
    .behind rfl (.of_isUnquoted rfl) hpair
  unfold binaryText
  split
  · have hmod : IsValueText ("rt::mod(" ++ (left.text ++ (", " ++ (right.text ++ ")")))) :=
      .behind rfl (.of_isUnquoted rfl) hpair
    simpa only [String.append_assoc] using hmod
  · dsimp only
    split
    · have hcast : IsValueText ("static_cast<int64_t>(" ++
          ("rt::pow(" ++ (left.text ++ (", " ++ (right.text ++ (")" ++ ")")))))) := by
        have hclosing : IsSparing ")".toList := .of_isUnquoted rfl
        have hclosed := sparing_append hpow.sparing hclosing
        simp only [String.append_assoc] at hclosed
        exact .behind rfl (.of_isUnquoted rfl) hclosed
      simpa only [String.append_assoc] using hcast
    · simpa only [String.append_assoc] using hpow
  · have hblank : IsSparing " ".toList := .of_isUnquoted rfl
    have hsymbol : IsSparing op.symbol.toList :=
      .of_isUnquoted (by rcases op with op | op | op <;> cases op <;> rfl)
    have hoperand := (isValueText_operand hright (op.precedence + 1)).sparing
    have hends : endsWord (" " ++ op.symbol).toList = true := by
      rcases op with op | op | op <;> cases op <;> rfl
    have hbehind : IsSparing (" " ++ op.symbol ++ (" " ++ right.operand (op.precedence + 1))).toList :=
      sparing_append (sparing_append hblank hsymbol) (sparing_append hblank hoperand)
    have hwhole := (isValueText_operand hleft op.precedence).append
      (by rw [String.toList_append]; exact endsWord_append hends) hbehind
    simpa only [String.append_assoc] using hwhole

/-- A literal starts like a value. What stands between its quotes does not count. -/
theorem isValueText_ofLiteral {literal : Literal} (h : (ofLiteral literal p).outcome = .ok typed) :
    IsValueText typed.text := by
  rcases eq_of_ofLiteral h with ⟨value, -, rfl⟩ | ⟨value, -, -, rfl⟩ | ⟨value, -, rfl⟩
  · cases value with
    | true => exact ⟨rfl, .of_isUnquoted rfl⟩
    | false => exact ⟨rfl, .of_isUnquoted rfl⟩
  · refine ⟨?_, isSparing_charLiteral _⟩
    simp only [charLiteral, String.toList_append, List.append_assoc]
    exact startsValue_of_endsWord rfl
  · refine ⟨?_, isSparing_stringLiteral _⟩
    simp only [stringLiteral, String.toList_append, List.append_assoc]
    exact startsValue_of_endsWord rfl

/-- A number is a word, with or without a sign in front of it and a point in it. -/
theorem isValueText_number (number : Number) : IsValueText number.target := by
  refine ⟨?_, isSparing_number number⟩
  have hnumeral := List.all_eq_true.1 (all_numeral_number number)
  generalize number.target.toList = text at hnumeral
  unfold startsValue behindWord
  cases hrest : text.dropWhile isWordPart with
  | nil => rw [List.all_eq_true.2 (List.dropWhile_eq_nil_iff.1 hrest), Bool.true_or]
  | cons c rest =>
    have hc : isWordPart c = false := by
      have hhead := List.head?_dropWhile_not isWordPart text
      rw [hrest] at hhead
      simpa using hhead
    have hmark := hnumeral c ((List.dropWhile_sublist isWordPart).subset (by simp [hrest]))
    have hblank : c ≠ ' ' := by rintro rfl; cases hmark
    have hangle : c ≠ '<' := by rintro rfl; cases hmark
    simp [behindAngles, endsWord, hc, hblank, hangle]

/-- A name starts like a value, if nothing else follows it in its line. -/
theorem isValueText_name {name : String} (h : Token.IsName name) : IsValueText (Target.name name) := by
  refine ⟨?_, isSparing_name h⟩
  have hword : (Target.name name).toList.all isWordPart = true :=
    List.all_eq_true.2 fun c hc => isWordPart_of_isNamePart (Effect.isNamePart_targetName h c hc)
  rw [startsValue, hword, Bool.true_or]

end Typed

namespace Expr

variable {scopes : Scopes} {e : Expr} {typed : Typed}

/-- The text of every value starts like one, and mentions no temporary. So no line that starts with
it declares a name, however the expression is nested. -/
theorem isValueText_of_value (hspelled : e.WellSpelled) (h : (e.value scopes).outcome = .ok typed) :
    IsValueText typed.text := by
  induction e using Expr.inductionOnChildren generalizing typed with
  | step e ih =>
    have hvalue : ∀ part ∈ e.children, ∀ typed, (part.value scopes).outcome = .ok typed →
        IsValueText typed.text :=
      fun part hpart typed h => ih part hpart (hspelled.child hpart) h
    cases ValueStep.of_value h with
    | number hnumber =>
      obtain ⟨_, rfl⟩ := Typed.eq_of_ofNumber hnumber
      exact Typed.isValueText_number _
    | literal hliteral => exact Typed.isValueText_ofLiteral hliteral
    | ident hname =>
      obtain ⟨symbol, -, rfl⟩ := Typed.eq_of_ofName hname
      exact Typed.isValueText_name (hspelled _ .self)
    | call hargs hcall =>
      obtain ⟨resolved, hresolved, rfl⟩ := Typed.eq_of_callFunction hcall
      obtain ⟨b, hb, -, -, htarget, -⟩ := Signature.exists_builtin_of_resolve hresolved
      exact Typed.isValueText_call (htarget ▸ isCallee_builtin b hb) (forall_values hvalue hargs)
    | index hwhole hselected helement =>
      exact Typed.isValueText_elementAt (hvalue _ (by simp [children]) _ hwhole)
        (hvalue _ (by simp [children]) _ hselected) helement
    | method hwhole hargs hcall =>
      rw [children, List.forall_mem_cons] at hvalue
      exact Typed.isValueText_callMethod (hvalue.1 _ hwhole) (forall_values hvalue.2 hargs) hcall
    | convert hargs hconvert =>
      obtain ⟨resolved, hresolved, rfl⟩ := Typed.eq_of_convert hconvert
      rw [children, List.reduceOption_nil, List.append_nil] at hvalue
      exact Typed.isValueText_call (isCallee_conversion hresolved) (forall_values hvalue hargs)
    | unary hinner hunary =>
      exact Typed.isValueText_applyUnary (hvalue _ (by simp [children]) _ hinner) hunary
    | stepBefore hinner hstep | stepAfter hinner hstep =>
      exact Typed.isValueText_applyStep (hvalue _ (by simp [children]) _ hinner) hstep
    | binary hfirst hsecond hbinary =>
      exact Typed.isValueText_applyBinary (hvalue _ (by simp [children]) _ hfirst)
        (hvalue _ (by simp [children]) _ hsecond) hbinary

end Expr

end Sprout
