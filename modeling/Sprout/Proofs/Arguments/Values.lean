import Sprout.Proofs.Arguments.Texts

namespace Sprout

open Target

namespace Typed

variable {typed inner left right receiver offset : Typed} {args : List Typed} {p : Position}

/-- The text of a typed expression is one argument wherever it is put: it ends outside quotes,
closes just the parentheses it opens, and has no comma outside of them. -/
structure IsArgument (typed : Typed) : Prop where
  closed : Closed typed.text.toList
  nonempty : typed.text ≠ ""

/-- A solid text is not empty. -/
theorem nonempty_of_isSolid {text : String} (h : isSolid text = true) : text ≠ "" := by
  rintro rfl
  cases h

/-- Closed texts are closed one behind the other. -/
theorem closed_append {text more : String} (h : Closed text.toList) (h' : Closed more.toList) :
    Closed (text ++ more).toList := by
  rw [String.toList_append]
  exact h.append h'

/-- A text that can stand between parentheses is closed with them around it. -/
theorem closed_parenthesised {text : String} (h : Fills text.toList) :
    Closed ("(" ++ text ++ ")").toList := by
  rw [String.toList_append, String.toList_append]
  exact h.parenthesised

/-- Closed texts can stand between parentheses with commas between them. -/
theorem fills_intercalate {texts : List String} (h : ∀ text ∈ texts, Closed text.toList) :
    Fills (", ".intercalate texts).toList := by
  induction texts with
  | nil => rfl
  | cons text texts ih =>
    rw [List.forall_mem_cons] at h
    cases texts with
    | nil => simpa using h.1.fills
    | cons next texts =>
      rw [String.intercalate_cons_cons, String.toList_append, String.toList_append, List.append_assoc]
      exact h.1.fills.comma (ih h.2)

/-- An operand is closed, in parentheses or not. -/
theorem closed_operand (h : typed.IsArgument) (precedence : Nat) :
    Closed (typed.operand precedence).toList := by
  unfold operand
  split
  · exact closed_parenthesised h.closed.fills
  · exact h.closed

/-- The texts of arguments are closed. -/
theorem closed_texts (h : ∀ arg ∈ args, arg.IsArgument) :
    ∀ text ∈ args.map Typed.text, Closed text.toList := by
  intro text htext
  obtain ⟨arg, harg, rfl⟩ := List.mem_map.1 htext
  exact (h arg harg).closed

/-- What is called by a closed text makes a closed text with its arguments. -/
theorem closed_call {callee : String} (hcallee : Closed callee.toList)
    (hargs : ∀ arg ∈ args, arg.IsArgument) :
    Closed (callee ++ "(" ++ argumentText args ++ ")").toList := by
  have hall := closed_parenthesised (fills_intercalate (closed_texts hargs))
  have hwhole := closed_append hcallee hall
  simpa only [argumentText, ← String.append_assoc] using hwhole

/-- The arguments of a call are its arguments in the emitted text, too. -/
theorem isCall_of_closed {callee : String} (hcallee : Closed callee.toList)
    (hargs : ∀ arg ∈ args, arg.IsArgument) :
    IsCall callee (callee ++ "(" ++ argumentText args ++ ")") args.length := by
  have hne : args.map Typed.text ≠ [""] := by
    intro heq
    obtain ⟨arg, harg, hempty⟩ := List.mem_map.1 (heq ▸ List.mem_singleton_self "")
    exact (hargs arg harg).nonempty hempty
  have hcall := IsCall.of_closed hcallee (closed_texts hargs) hne
  rwa [List.length_map] at hcall

/-- Every builtin is called by a closed text. -/
theorem closed_builtin : ∀ b ∈ Builtin.all, b.target.toList.all isQuiet = true := by
  decide

/-- The name of what is called is closed. -/
theorem closed_resolved {call : Signature} {resolved : Resolved} (h : call.resolve = .ok resolved) :
    Closed resolved.target.toList := by
  obtain ⟨b, hb, -, -, htarget, -⟩ := Signature.exists_builtin_of_resolve h
  exact .of_quiet (htarget ▸ closed_builtin b hb)

/-- The name of a conversion is closed. The comma between two type arguments of a cast stands in
none. -/
theorem closed_conversion {target : Primitive} {types : List Ty} {resolved : Resolved}
    (h : target.resolveConversion types = .ok resolved) : Closed resolved.target.toList := by
  obtain ⟨source, -, -, -, rfl⟩ := Primitive.eq_of_resolveConversion h
  exact .of_quiet (by cases target <;> rfl)

/-- A call of a member is closed if its receiver is. -/
theorem closed_member {member : String} (hreceiver : receiver.IsArgument)
    (hmember : Closed member.toList) :
    Closed (receiver.operand atomPrecedence ++ "." ++ member).toList :=
  closed_append (closed_append (closed_operand hreceiver _) (.of_quiet rfl)) hmember

/-- The call that a method is emitted as. -/
theorem call_of_callMethod {name : String} (hreceiver : receiver.IsArgument)
    (h : (callMethod receiver name args p).outcome = .ok typed) :
    ∃ callee, Closed callee.toList ∧ typed.text = callee ++ "(" ++ argumentText args ++ ")" := by
  rcases eq_of_callMethod h with ⟨offset, -, rfl, helement⟩ | ⟨-, resolved, hresolved, -, rfl⟩
  · have hat : Closed (receiver.operand atomPrecedence ++ "." ++ "at").toList :=
      closed_member hreceiver (.of_quiet rfl)
    refine ⟨_, hat, ?_⟩
    rw [(elementAt_eq_ok helement).1]
    simp [argumentText, String.append_assoc]
  · exact ⟨_, closed_member hreceiver (closed_resolved hresolved), rfl⟩

/-- A call of closed arguments is closed, and can be an argument itself. -/
theorem IsArgument.call {callee : String} (hcallee : Closed callee.toList)
    (hargs : ∀ arg ∈ args, arg.IsArgument)
    (htext : typed.text = callee ++ "(" ++ argumentText args ++ ")") : typed.IsArgument := by
  constructor
  · rw [htext]
    exact closed_call hcallee hargs
  · simp [htext]

/-- What has a sign can be an argument. -/
theorem isArgument_applyUnary {op : UnaryOp} (hinner : inner.IsArgument)
    (h : (applyUnary op inner p).outcome = .ok typed) : typed.IsArgument := by
  obtain ⟨-, rfl⟩ := eq_of_applyUnary h
  have hsymbol : Closed op.symbol.toList := .of_quiet (by cases op <;> rfl)
  have hoperand := closed_operand hinner unaryPrecedence
  constructor
  · refine closed_append hsymbol ?_
    split
    · exact closed_parenthesised hoperand.fills
    · exact hoperand
  · cases op <;> simp [UnaryOp.symbol]

/-- A step can be an argument. -/
theorem isArgument_applyStep {op : StepOp} {after : Bool} (hinner : inner.IsArgument)
    (h : (applyStep op after inner p).outcome = .ok typed) : typed.IsArgument := by
  obtain ⟨-, -, -, rfl⟩ := eq_of_applyStep h
  have hsymbol : Closed op.symbol.toList := .of_quiet (by cases op <;> rfl)
  have hnonempty := hinner.nonempty
  cases after with
  | true => exact ⟨closed_append hinner.closed hsymbol, by simp [hnonempty]⟩
  | false => exact ⟨closed_append hsymbol hinner.closed, by simp [hnonempty]⟩

/-- What an operator joins can be an argument. A power is a call of two. -/
theorem isArgument_applyBinary {op : BinaryOp} (hleft : left.IsArgument) (hright : right.IsArgument)
    (h : (applyBinary op left right p).outcome = .ok typed) : typed.IsArgument := by
  obtain ⟨type, -, rfl⟩ := eq_of_applyBinary h
  have hpair : ∀ arg ∈ [left, right], arg.IsArgument := by simp [hleft, hright]
  have hcall : ∀ callee : String, callee.toList.all isQuiet = true →
      Closed (callee ++ "(" ++ (left.text ++ ", " ++ right.text) ++ ")").toList := by
    intro callee hcallee
    simpa [argumentText, String.intercalate_cons_cons] using closed_call (.of_quiet hcallee) hpair
  unfold binaryText
  split
  · refine ⟨?_, by simp⟩
    simpa [String.append_assoc] using hcall "rt::mod" rfl
  · have hpow := hcall "rt::pow" rfl
    dsimp only
    split
    · refine ⟨?_, by simp⟩
      have hcast : Closed ("static_cast<int64_t>" ++
          ("(" ++ ("rt::pow" ++ "(" ++ (left.text ++ ", " ++ right.text) ++ ")") ++ ")")).toList :=
        closed_append (.of_quiet rfl) (closed_parenthesised hpow.fills)
      simpa [String.append_assoc] using hcast
    · refine ⟨?_, by simp⟩
      simpa [String.append_assoc] using hpow
  · have hquiet : op.symbol.toList.all isQuiet = true := by
      rcases op with op | op | op <;> cases op <;> rfl
    have hsymbol : Closed op.symbol.toList := .of_quiet hquiet
    have hfirst : Closed (left.operand op.precedence ++ " " ++ op.symbol).toList :=
      closed_append (closed_append (closed_operand hleft _) (.of_quiet rfl)) hsymbol
    refine ⟨?_, by simp⟩
    exact closed_append (closed_append hfirst (.of_quiet rfl)) (closed_operand hright _)

/-- A literal can be an argument, whatever stands between its quotes. -/
theorem isArgument_ofLiteral {literal : Literal} (h : (ofLiteral literal p).outcome = .ok typed) :
    typed.IsArgument := by
  rcases eq_of_ofLiteral h with ⟨value, -, rfl⟩ | ⟨value, -, -, rfl⟩ | ⟨value, -, rfl⟩
  · cases value with
    | true => exact ⟨.of_quiet rfl, by simp⟩
    | false => exact ⟨.of_quiet rfl, by simp⟩
  · exact ⟨closed_charLiteral _, by simp [charLiteral]⟩
  · exact ⟨closed_stringLiteral _, by simp [stringLiteral]⟩

end Typed

namespace Expr

variable {scopes : Scopes} {e part : Expr} {typed : Typed} {args : List Expr}

/-- Whether the variables of an expression have names that can be read. -/
def IsNamed (e : Expr) : Prop :=
  ∀ name position, Within (.ident name position) e → Token.IsName name

/-- The names in a part are names in the whole. -/
theorem IsNamed.child (h : e.IsNamed) (hpart : part ∈ e.children) : part.IsNamed :=
  fun name position hwithin => h name position (.child hpart hwithin)

/-- In an expression that is well spelled, all names are. -/
theorem WellSpelled.isNamed (h : e.WellSpelled) : e.IsNamed :=
  fun _ _ hwithin => h _ hwithin

/-- The arguments of a call; an index is the argument of the call that selects an element. -/
def passed? : Expr → Option (List Expr)
  | call _ args _ | method _ _ args _ | convert _ _ args _ => some args
  | index _ offset => some [offset]
  | _ => none

/-- The arguments of a call are parts of it. -/
theorem passed?_subset (h : e.passed? = some args) : ∀ arg ∈ args, arg ∈ e.children := by
  unfold passed? at h
  split at h <;> cases h <;> simp +contextual [children]

/-- The call that an expression with arguments is emitted as, if its parts are arguments. -/
theorem call_of_value (hargs : e.passed? = some args)
    (hvalue : ∀ part ∈ e.children, ∀ typed, (part.value scopes).outcome = .ok typed →
      typed.IsArgument)
    (h : (e.value scopes).outcome = .ok typed) :
    ∃ callee results, Closed callee.toList ∧ (values scopes args).outcome = .ok results ∧
      typed.text = callee ++ "(" ++ Typed.argumentText results ++ ")" := by
  cases ValueStep.of_value h with
  | number | literal | ident | unary | stepBefore | stepAfter | binary => cases hargs
  | call hresults hcall =>
    cases hargs
    obtain ⟨resolved, hresolved, rfl⟩ := Typed.eq_of_callFunction hcall
    exact ⟨_, _, Typed.closed_resolved hresolved, hresults, rfl⟩
  | method hwhole hresults hcall =>
    cases hargs
    have hreceiver := hvalue _ (by simp [children]) _ hwhole
    obtain ⟨callee, hcallee, htext⟩ := Typed.call_of_callMethod hreceiver hcall
    exact ⟨callee, _, hcallee, hresults, htext⟩
  | convert hresults hconvert =>
    cases hargs
    obtain ⟨resolved, hresolved, rfl⟩ := Typed.eq_of_convert hconvert
    exact ⟨_, _, Typed.closed_conversion hresolved, hresults, rfl⟩
  | @index _ _ whole selected hwhole hselected helement =>
    cases hargs
    have hreceiver := hvalue _ (by simp [children]) _ hwhole
    have hat : Closed (whole.operand atomPrecedence ++ "." ++ "at").toList :=
      Typed.closed_member hreceiver (.of_quiet rfl)
    refine ⟨_, [selected], hat, ?_, ?_⟩
    · simp only [values, Checked.outcome_bind_eq_ok_iff]
      exact ⟨selected, hselected, [], rfl, rfl⟩
    · rw [(Typed.elementAt_eq_ok helement).1]
      simp [Typed.argumentText, String.append_assoc]

/-- The text of every value can stand as one argument, by induction on the expression: each step of
typing puts parentheses or signs around texts that can. -/
theorem isArgument_of_value (hnamed : e.IsNamed) (h : (e.value scopes).outcome = .ok typed) :
    typed.IsArgument := by
  induction e using Expr.inductionOnChildren generalizing typed with
  | step e ih =>
    have hvalue : ∀ part ∈ e.children, ∀ typed, (part.value scopes).outcome = .ok typed →
        typed.IsArgument :=
      fun part hpart typed h => ih part hpart (hnamed.child hpart) h
    have hcalls : ∀ args, e.passed? = some args → typed.IsArgument := by
      intro args hargs
      obtain ⟨callee, results, hcallee, hresults, htext⟩ := call_of_value hargs hvalue h
      refine .call hcallee (forall_values (fun arg harg => ?_) hresults) htext
      exact hvalue arg (passed?_subset hargs arg harg)
    cases ValueStep.of_value h with
    | number hnumber =>
      obtain ⟨_, rfl⟩ := Typed.eq_of_ofNumber hnumber
      exact ⟨closed_number _, Typed.nonempty_of_isSolid (isSolid_number _)⟩
    | literal hliteral => exact Typed.isArgument_ofLiteral hliteral
    | ident hsymbol =>
      obtain ⟨symbol, -, rfl⟩ := Typed.eq_of_ofName hsymbol
      have hname := hnamed _ _ .self
      exact ⟨closed_name hname, Typed.nonempty_of_isSolid (isSolid_name hname)⟩
    | call | index | method | convert => exact hcalls _ rfl
    | unary hinner hunary =>
      exact Typed.isArgument_applyUnary (hvalue _ (by simp [children]) _ hinner) hunary
    | stepBefore hinner hstep | stepAfter hinner hstep =>
      exact Typed.isArgument_applyStep (hvalue _ (by simp [children]) _ hinner) hstep
    | binary hfirst hsecond hbinary =>
      exact Typed.isArgument_applyBinary (hvalue _ (by simp [children]) _ hfirst)
        (hvalue _ (by simp [children]) _ hsecond) hbinary

/-- A call is emitted with as many arguments as it has. -/
theorem isCall_of_value (hnamed : e.IsNamed) (hargs : e.passed? = some args)
    (h : (e.value scopes).outcome = .ok typed) :
    ∃ callee, IsCall callee typed.text args.length := by
  have hvalue : ∀ part ∈ e.children, ∀ typed, (part.value scopes).outcome = .ok typed →
      typed.IsArgument :=
    fun part hpart typed h => isArgument_of_value (hnamed.child hpart) h
  obtain ⟨callee, results, hcallee, hresults, htext⟩ := call_of_value hargs hvalue h
  have harguments := forall_values (fun arg harg =>
    hvalue arg (passed?_subset hargs arg harg)) hresults
  rw [htext, (forall₂_of_values hresults).length_eq]
  exact ⟨callee, Typed.isCall_of_closed hcallee harguments⟩

end Expr

end Sprout
