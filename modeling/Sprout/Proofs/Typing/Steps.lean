import Sprout.Proofs.Outcome

namespace Sprout

/-- A conversion is bound for a single value of a primitive type, and to any type but `void`. It
calls the runtime for a text, and is a cast for all other types. -/
theorem Primitive.eq_of_resolveConversion {target : Primitive} {types : List Ty}
    {resolved : Resolved} (h : target.resolveConversion types = .ok resolved) :
    ∃ source, types = [.primitive source] ∧ source ≠ .void ∧ target ≠ .void ∧ resolved =
      { result := .primitive target
        target := if target = .str then "rt::to_str" else "static_cast<" ++ target.target ++ ">"
        isConversion := true } := by
  unfold resolveConversion at h
  dsimp only at h
  split at h
  · cases h
  · rename_i source hsource
    split at h
    · cases h
    · rename_i htarget
      refine ⟨source, rfl, fun hvoid => hsource (by rw [hvoid]), htarget, ?_⟩
      split at h
      · rename_i hstr
        cases h
        rw [if_pos hstr]
      · rename_i hstr
        split at h <;> cases h
        rw [if_neg hstr]
  · cases h
  · cases h

/-- A call is bound to a builtin of its name that accepts its receiver and its arguments. -/
theorem Signature.exists_bind_of_resolve {call : Signature} {resolved : Resolved}
    (h : call.resolve = .ok resolved) :
    ∃ b ∈ Builtin.all, b.name = call.name ∧ b.receiver.accepts call.receiver = true ∧
      ∃ narrowed, Builtin.bind (call.receiver.bind Ty.element?) b.variadic 0 b.params call.args =
          some narrowed ∧
        resolved =
          { result := b.returns.type (call.receiver.bind Ty.element?)
            target := b.target
            isVariadic := b.variadic.isSome
            mutates := b.receiver = .vector
            narrowed } := by
  simp only [resolve] at h
  split at h
  · rename_i found hfound
    cases h
    simp only [resolveAmong] at hfound
    obtain ⟨b, hb, hbound⟩ := List.exists_of_findSome?_eq_some hfound
    obtain ⟨hnamed, haccepts⟩ := List.mem_filter.1 hb
    obtain ⟨hall, hname⟩ := List.mem_filter.1 hnamed
    obtain ⟨narrowed, hbind, rfl⟩ := Option.map_eq_some_iff.1 hbound
    exact ⟨b, hall, by simpa using hname, haccepts, narrowed, hbind, rfl⟩
  · cases h

/-- A call is bound to a builtin of its name. -/
theorem Signature.exists_builtin_of_resolve {call : Signature} {resolved : Resolved}
    (h : call.resolve = .ok resolved) :
    ∃ b ∈ Builtin.all, b.name = call.name ∧ b.receiver.accepts call.receiver = true ∧
      resolved.target = b.target ∧ resolved.mutates = decide (b.receiver = .vector) ∧
      resolved.result = b.returns.type (call.receiver.bind Ty.element?) := by
  obtain ⟨b, hb, hname, haccepts, narrowed, -, rfl⟩ := exists_bind_of_resolve h
  exact ⟨b, hb, hname, haccepts, rfl, rfl, rfl⟩

/-- The methods that change their receiver are bound as such. -/
theorem Signature.mutates_of_resolve {receiver : Option Ty} {name : String} {args : List Ty}
    {resolved : Resolved} (hname : name ∈ ["push", "pop", "clear"])
    (h : resolve ⟨receiver, name, args⟩ = .ok resolved) : resolved.mutates = true := by
  have hvector : ∀ b ∈ Builtin.all, b.name ∈ ["push", "pop", "clear"] → b.receiver = .vector := by
    decide
  obtain ⟨b, hb, rfl, -, -, hmutates, -⟩ := exists_builtin_of_resolve h
  rw [hmutates, hvector b hb hname]
  rfl

/-- A method has its own name in the generated text, except for the length of a string. -/
theorem Signature.target_of_resolve {receiver : Ty} {name : String} {args : List Ty}
    {resolved : Resolved} (hlen : name = "len" → receiver ≠ .str)
    (h : resolve ⟨some receiver, name, args⟩ = .ok resolved) : resolved.target = name := by
  have htarget : ∀ b ∈ Builtin.all, b.receiver ≠ .free → b.target = b.name ∨
      b.name = "len" ∧ b.receiver = .str := by
    decide
  obtain ⟨b, hb, rfl, haccepts, hresolved, -⟩ := exists_builtin_of_resolve h
  rw [hresolved]
  rcases htarget b hb (by rintro hfree; simp [hfree, Builtin.Receiver.accepts] at haccepts) with
    hsame | ⟨hname, hstr⟩
  · exact hsame
  · simp only [hstr, Builtin.Receiver.accepts, decide_eq_true_eq] at haccepts
    exact absurd haccepts (hlen hname)

namespace Typed

variable {typed receiver inner left right : Typed} {position : Position}

/-- A numeric literal has a value that is known. -/
theorem eq_of_ofNumber {number : Number} (h : (ofNumber number position).outcome = .ok typed) :
    ∃ constant, typed =
      { text := number.target, type := .primitive number.type, constant := some constant } := by
  unfold ofNumber at h
  split at h
  · cases h
    exact ⟨_, rfl⟩
  all_goals
    split at h
    · cases h
      exact ⟨_, rfl⟩
    · simp at h

/-- A literal that is not a number has the type of its kind and a value that is known; of the
characters, those of ASCII have one. -/
theorem eq_of_ofLiteral {literal : Literal}
    (h : (ofLiteral literal position).outcome = .ok typed) :
    (∃ value, literal = .bool value ∧ typed =
      { text := if value then "true" else "false"
        type := .bool
        constant := some (.bool value) }) ∨
    (∃ value, literal = .char value ∧ value.toNat < 128 ∧ typed =
      { text := Target.charLiteral value
        type := .char
        constant := some (.char value) }) ∨
    ∃ value, literal = .str value ∧ typed =
      { text := Target.stringLiteral value.toList
        type := .str
        constant := some (.str value) } := by
  unfold ofLiteral at h
  split at h
  · cases h
    exact .inl ⟨_, rfl, rfl⟩
  · split at h
    · rename_i hascii
      cases h
      exact .inr (.inl ⟨_, rfl, hascii, rfl⟩)
    · simp at h
  · cases h
    exact .inr (.inr ⟨_, rfl, rfl⟩)

/-- A name that is typed is declared, and typed as its symbol says. -/
theorem eq_of_ofName {scopes : Scopes} {name : String}
    (h : (ofName scopes name position).outcome = .ok typed) :
    ∃ symbol, scopes.lookup name = some symbol ∧ typed =
      { text := Target.name name
        type := symbol.type
        constant := symbol.constant
        place := some ⟨name, symbol.mutable, symbol.constant.isSome⟩ } := by
  unfold ofName at h
  split at h
  · simp at h
  · rename_i symbol hsymbol
    cases h
    exact ⟨symbol, hsymbol, rfl⟩

/-- An element is asked for by a whole number, and of a type that has elements. -/
theorem eq_of_elementAt {offset : Typed}
    (h : (elementAt receiver offset position).outcome = .ok typed) :
    offset.type.isInteger = true ∧ ∃ element, elementType? receiver.type = some element ∧ typed =
      { text := receiver.operand atomPrecedence ++ ".at(" ++ offset.text ++ ")"
        type := element
        place := receiver.place } := by
  unfold elementAt at h
  split at h
  · simp at h
  · rename_i hinteger
    refine ⟨by simpa using hinteger, ?_⟩
    split at h
    · simp at h
    · rename_i element helement
      refine ⟨element, helement, ?_⟩
      dsimp only at h
      split at h
      · split at h
        · simp at h
        · cases h
          rfl
      · cases h
        rfl

/-- An element stands for the place that its receiver is. -/
theorem elementAt_eq_ok {offset : Typed}
    (h : (elementAt receiver offset position).outcome = .ok typed) :
    typed.text = receiver.operand atomPrecedence ++ ".at(" ++ offset.text ++ ")" ∧
      typed.precedence = atomPrecedence ∧ typed.place = receiver.place := by
  obtain ⟨-, element, -, rfl⟩ := eq_of_elementAt h
  exact ⟨rfl, rfl, rfl⟩

/-- A call is typed as what it has been resolved to says. -/
theorem eq_of_call {target : Option Typed} {resolved : Resolved} {args : List Typed}
    (h : (call target resolved args position).outcome = .ok typed) :
    typed =
      { text := target.elim resolved.target
            (fun receiver => receiver.operand atomPrecedence ++ "." ++ resolved.target) ++
          "(" ++ argumentText args ++ ")"
        type := resolved.result
        isCall := true } := by
  cases target <;> simp only [call, Checked.outcome_bind_eq_ok_iff] at h <;>
    obtain ⟨_, -, heq⟩ := h <;> cases heq <;> rfl

/-- A function is bound to a builtin that takes no receiver. -/
theorem eq_of_callFunction {name : String} {args : List Typed}
    (h : (callFunction name args position).outcome = .ok typed) :
    ∃ resolved, Signature.resolve ⟨none, name, args.map Typed.type⟩ = .ok resolved ∧ typed =
      { text := resolved.target ++ "(" ++ argumentText args ++ ")"
        type := resolved.result
        isCall := true } := by
  simp only [callFunction, bindCall, Checked.outcome_bind_eq_ok_iff,
    Checked.outcome_mapError_eq_ok_iff, Checked.outcome_lift] at h
  obtain ⟨resolved, hresolved, h⟩ := h
  have htyped := eq_of_call h
  exact ⟨resolved, hresolved, htyped⟩

/-- A method either selects an element or is bound to a builtin; if it changes its receiver, that
may be written. -/
theorem eq_of_callMethod {name : String} {args : List Typed}
    (h : (callMethod receiver name args position).outcome = .ok typed) :
    (∃ offset, name = "at" ∧ args = [offset] ∧
      (elementAt receiver offset position).outcome = .ok typed) ∨
    (name ≠ "at" ∧ ∃ resolved,
      Signature.resolve ⟨some receiver.type, name, args.map Typed.type⟩ = .ok resolved ∧
      (resolved.mutates = true → receiver.checkModifiable position = .ok ()) ∧ typed =
        { text := receiver.operand atomPrecedence ++ "." ++ resolved.target ++ "(" ++
            argumentText args ++ ")"
          type := resolved.result
          isCall := true }) := by
  unfold callMethod at h
  split at h
  · rename_i hat
    split at h
    · exact .inl ⟨_, hat, rfl, h⟩
    · simp at h
  · rename_i hat
    simp only [bindCall, Checked.outcome_bind_eq_ok_iff, Checked.outcome_mapError_eq_ok_iff,
      Checked.outcome_lift] at h
    obtain ⟨resolved, hresolved, h⟩ := h
    refine .inr ⟨hat, resolved, hresolved, ?_⟩
    split at h
    · simp only [Checked.outcome_bind_eq_ok_iff, Checked.outcome_lift] at h
      obtain ⟨_, hmodifiable, hcall⟩ := h
      have htyped := eq_of_call hcall
      exact ⟨fun _ => hmodifiable, htyped⟩
    · rename_i hmutates
      have htyped := eq_of_call h
      exact ⟨fun hmutates' => absurd hmutates' hmutates, htyped⟩

/-- A conversion that is typed has been resolved for the types of its arguments. -/
theorem eq_of_convert {target : Primitive} {args : List Typed}
    (h : (convert target args position).outcome = .ok typed) :
    ∃ resolved, target.resolveConversion (args.map Typed.type) = .ok resolved ∧ typed =
      { text := resolved.target ++ "(" ++ argumentText args ++ ")"
        type := resolved.result
        constant := (args.head?.bind Typed.constant).bind (·.convert resolved.result) } := by
  simp only [convert, Checked.outcome_bind_eq_ok_iff, Checked.outcome_mapError_eq_ok_iff,
    Checked.outcome_lift] at h
  obtain ⟨resolved, hresolved, heq⟩ := h
  cases heq
  exact ⟨resolved, hresolved, rfl⟩

/-- The operand of a unary operator has parentheses if it is a looser expression, or else if it
starts with a sign. -/
theorem eq_of_applyUnary {op : UnaryOp} (h : (applyUnary op inner position).outcome = .ok typed) :
    (inner.type = .bool ∨ inner.type.isNumeric = true) ∧ typed =
      { text := op.symbol ++
          (if (inner.operand unaryPrecedence).toList.head? = some '-' ||
              (inner.operand unaryPrecedence).toList.head? = some '+' then
            "(" ++ inner.operand unaryPrecedence ++ ")"
          else inner.operand unaryPrecedence)
        type := inner.type
        constant := inner.constant.bind (foldUnary op)
        precedence := unaryPrecedence } := by
  cases op <;> simp only [applyUnary] at h <;> split at h
  all_goals first
    | cases h
      refine ⟨?_, rfl⟩
      simp_all
    | simp at h

/-- What a sign makes is the sign and its operand, in parentheses if that starts with a sign. -/
theorem applyUnary_eq_ok {op : UnaryOp} (h : (applyUnary op inner position).outcome = .ok typed) :
    ∃ text, text = inner.operand unaryPrecedence ∧
      typed.text = op.symbol ++
        (if text.toList.head? = some '-' || text.toList.head? = some '+' then "(" ++ text ++ ")"
        else text) ∧
      typed.precedence = unaryPrecedence ∧ typed.place = none := by
  obtain ⟨-, rfl⟩ := eq_of_applyUnary h
  exact ⟨_, rfl, rfl, rfl, rfl⟩

/-- A step works on a number in a place that may be written, and has the type of the place. It has
no known value, and is no place itself. -/
theorem eq_of_applyStep {op : StepOp} {after : Bool}
    (h : (applyStep op after inner position).outcome = .ok typed) :
    inner.place.isSome = true ∧ inner.checkModifiable position = .ok () ∧
      inner.type.isNumeric = true ∧ typed =
        { text := if after then inner.text ++ op.symbol else op.symbol ++ inner.text
          type := inner.type
          isStep := true
          precedence := if after then atomPrecedence else unaryPrecedence } := by
  unfold applyStep at h
  split at h
  · simp at h
  · rename_i hplace
    simp only [Checked.outcome_bind_eq_ok_iff, Checked.outcome_lift] at h
    obtain ⟨_, hmodifiable, h⟩ := h
    split at h
    · simp at h
    · rename_i hnumeric
      cases h
      exact ⟨by simpa [Option.isSome_iff_ne_none] using hplace, hmodifiable,
        by simpa using hnumeric, rfl⟩

/-- A step needs a place that can be modified. -/
theorem applyStep_eq_ok {op : StepOp} {after : Bool}
    (h : (applyStep op after inner position).outcome = .ok typed) :
    inner.place.isSome = true ∧ inner.checkModifiable position = .ok () ∧
      typed.text = (if after then inner.text ++ op.symbol else op.symbol ++ inner.text) ∧
      typed.precedence = (if after then atomPrecedence else unaryPrecedence) ∧
      typed.place = none := by
  obtain ⟨hplace, hmodifiable, -, rfl⟩ := eq_of_applyStep h
  exact ⟨hplace, hmodifiable, rfl, rfl, rfl⟩

/-- What an operator makes has the type that the operator gives for its operands. -/
theorem eq_of_applyBinary {op : BinaryOp}
    (h : (applyBinary op left right position).outcome = .ok typed) :
    ∃ type, resultType op left.type right.type = some type ∧ typed =
      { text := (binaryText op type left right).1
        type
        constant := (match left.constant, right.constant with
          | some a, some b => (Constant.fold op a b).bind (·.convert type)
          | _, _ => none)
        precedence := (binaryText op type left right).2 } := by
  unfold applyBinary at h
  split at h
  · simp at h
  · rename_i type htype
    split at h
    · simp at h
    · cases h
      exact ⟨type, htype, rfl⟩

/-- What an operator has checked where it is accepted, and what it makes. That is no place, whatever
its operands are. -/
theorem applyBinary_eq_ok {op : BinaryOp}
    (h : (applyBinary op left right position).outcome = .ok typed) :
    (∃ type, (typed.text, typed.precedence) = binaryText op type left right) ∧
      typed.place = none := by
  obtain ⟨type, -, rfl⟩ := eq_of_applyBinary h
  exact ⟨⟨type, rfl⟩, rfl⟩

/-- A converted text is the text itself, with or without a cast around it. -/
theorem converted_eq_ok {target : Ty} {text : String}
    (h : (typed.converted target position).outcome = .ok text) :
    text = typed.text ∨ text = "static_cast<" ++ target.target ++ ">(" ++ typed.text ++ ")" := by
  simp only [converted, Checked.outcome_bind_eq_ok_iff] at h
  obtain ⟨fit, -, h⟩ := h
  split at h
  · cases h
    exact .inr rfl
  · cases h
    exact .inl rfl

end Typed

end Sprout
