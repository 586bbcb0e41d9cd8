import Sprout.Proofs.Emission.Symbols
import Sprout.Proofs.Statements.Spelling
import Sprout.Proofs.Typing.Steps

namespace Sprout

namespace Ty

/-- Whether a value of the type can be stored: whether it is made of arrays and primitive types
other than `void`. -/
def isStorable : Ty → Bool
  | primitive p => p ≠ .void
  | array element _ => isStorable element
  | tuple _ | null => false

/-- Whether a call can return the type: a value that can be stored, none, or several of them. -/
def isReturned : Ty → Bool
  | primitive .void => true
  | tuple items => items.all isStorable
  | type => type.isStorable

variable {type element : Ty}

/-- Numbers can be stored. -/
theorem isStorable_of_isNumeric (h : type.isNumeric = true) : type.isStorable = true := by
  cases type with
  | primitive p => cases p <;> cases h <;> rfl
  | _ => cases h

/-- What can be stored can be returned. -/
theorem isReturned_of_isStorable (h : type.isStorable = true) : type.isReturned = true := by
  cases type with
  | primitive p => cases p <;> rfl
  | array element size => exact h
  | _ => cases h

/-- Whatever an index selects can be stored. -/
theorem isStorable_of_elementType (h : type.isReturned = true)
    (helement : Typed.elementType? type = some element) : element.isStorable = true := by
  unfold Typed.elementType? at helement
  split at helement
  · cases helement
    exact h
  · cases helement
    rfl
  · cases helement

/-- The elements of what is returned can be stored. -/
theorem isStorable_of_element (h : type.isReturned = true) (helement : type.element? = some element) :
    element.isStorable = true := by
  unfold element? at helement
  split at helement
  · cases helement
    exact h
  · cases helement

/-- Builtins for arrays are called on types that have elements. -/
theorem exists_element_of_accepts {receiver : Builtin.Receiver}
    (hreceiver : receiver ∈ [.array, .vector]) (h : receiver.accepts (some type) = true) :
    ∃ element, type.element? = some element := by
  cases type with
  | array element size => exact ⟨element, rfl⟩
  | _ =>
    simp only [List.mem_cons, List.not_mem_nil, or_false] at hreceiver
    rcases hreceiver with rfl | rfl <;> cases h

/-- The numeric type that two types share can be stored. -/
theorem isStorable_of_common {a b c : Primitive} (h : Primitive.common a b = some c) :
    (primitive c).isStorable = true := by
  cases a <;> cases b <;> cases h <;> rfl

/-- Every operator gives a value that can be stored. -/
theorem isStorable_of_resultType {op : BinaryOp} {left right : Ty}
    (h : Typed.resultType op left right = some type) : type.isStorable = true := by
  unfold Typed.resultType at h
  split at h
  · split at h <;> cases h
    rfl
  · split at h <;> cases h
    rfl
  · split at h
    · cases h
      rfl
    · split at h
      · obtain ⟨common, hcommon, rfl⟩ := Option.map_eq_some_iff.1 h
        split
        · split <;> rfl
        · exact isStorable_of_common hcommon
      · cases h

end Ty

/-- The symbols of a program that declares storable types only. -/
def Symbol.IsStorable (symbol : Symbol) : Prop :=
  symbol.type.isStorable = true

namespace Expr

/-- Whether an expression calls something that returns no value, or several. -/
def lacksValue : Expr → Bool
  | call name _ _ => name ∈ ["print", "println", "divmod"]
  | method _ name _ _ => name ∈ ["push", "clear"]
  | _ => false

mutual
/-- Whether all elements of an array literal have a value, those of literals in it included. -/
def hasValues : Expr → Bool
  | array elements _ => haveValues elements
  | _ => true
/-- Whether several expressions have a value and hold only elements that have one. -/
def haveValues : List Expr → Bool
  | [] => true
  | e :: es => !e.lacksValue && hasValues e && haveValues es
end

section Values

variable {scopes : Scopes} {e : Expr} {typed : Typed}

/-- A call of a function that returns nothing or several values is one by its name. -/
theorem isStorable_of_callFunction {name : String} {args : List Expr} {values : List Typed}
    {position : Position} (h : (Typed.callFunction name values position).outcome = .ok typed) :
    typed.type.isReturned = true ∧
      (typed.type.isStorable = true ∨ lacksValue (.call name args position) = true) := by
  obtain ⟨resolved, hresolved, rfl⟩ := Typed.eq_of_callFunction h
  obtain ⟨b, hb, rfl, haccepts, -, -, hresult⟩ := Signature.exists_builtin_of_resolve hresolved
  have hall : ∀ b ∈ Builtin.all, b.receiver.accepts none = true →
      (b.returns.type none).isReturned = true ∧ ((b.returns.type none).isStorable = true ∨
        b.name ∈ ["print", "println", "divmod"]) := by decide
  dsimp only
  rw [hresult]
  simpa [lacksValue] using hall b hb haccepts

/-- A method returns an element, a number or nothing. Elements can be stored if their array can, and
the methods that return nothing are among the calls without a value. -/
theorem isStorable_of_callMethod {receiver : Typed} {whole : Expr} {name : String}
    {args : List Expr} {values : List Typed} {position : Position}
    (hreceiver : receiver.type.isReturned = true)
    (h : (Typed.callMethod receiver name values position).outcome = .ok typed) :
    typed.type.isReturned = true ∧
      (typed.type.isStorable = true ∨ lacksValue (.method whole name args position) = true) := by
  rcases Typed.eq_of_callMethod h with
    ⟨offset, -, -, hselect⟩ | ⟨-, resolved, hresolved, -, rfl⟩
  · obtain ⟨-, element, helement, rfl⟩ := Typed.eq_of_elementAt hselect
    have hstorable := Ty.isStorable_of_elementType hreceiver helement
    exact ⟨Ty.isReturned_of_isStorable hstorable, .inl hstorable⟩
  · obtain ⟨b, hb, rfl, haccepts, -, -, hresult⟩ := Signature.exists_builtin_of_resolve hresolved
    have hall : ∀ b ∈ Builtin.all, b.receiver ≠ .free →
        b.returns = .u64 ∨ b.returns = .void ∧ b.name ∈ ["push", "clear"] ∨
          b.returns = .element ∧ b.receiver ∈ [.array, .vector] := by decide
    have hmethod : b.receiver ≠ .free := by
      intro hfree
      simp [hfree, Builtin.Receiver.accepts] at haccepts
    dsimp only
    rw [hresult]
    rcases hall b hb hmethod with hreturns | ⟨hreturns, hname⟩ | ⟨hreturns, harray⟩ <;>
      rw [hreturns]
    · exact ⟨rfl, .inl rfl⟩
    · exact ⟨rfl, .inr (by simpa [lacksValue] using hname)⟩
    · obtain ⟨element, helement⟩ := Ty.exists_element_of_accepts harray haccepts
      have hstorable := Ty.isStorable_of_element hreceiver helement
      simp only [Option.bind_some, helement, Builtin.Returns.type, Option.getD_some]
      exact ⟨Ty.isReturned_of_isStorable hstorable, .inl hstorable⟩

/-- A conversion gives a value of its type, which is not `void`: no conversion to that is bound. -/
theorem isStorable_of_convert {name : Primitive} {values : List Typed} {position : Position}
    (h : (Typed.convert name values position).outcome = .ok typed) :
    typed.type.isStorable = true := by
  obtain ⟨resolved, hresolved, rfl⟩ := Typed.eq_of_convert h
  obtain ⟨source, -, -, hvoid, rfl⟩ := Primitive.eq_of_resolveConversion hresolved
  simpa [Ty.isStorable] using hvoid

/-- A numeric literal that was read has a numeric type. -/
theorem isStorable_of_number {number : Number} {position : Position}
    (hspelled : Spelled (.number number position))
    (h : (Typed.ofNumber number position).outcome = .ok typed) : typed.type.isStorable = true := by
  obtain ⟨constant, rfl⟩ := Typed.eq_of_ofNumber h
  cases number with
  | integer type value =>
    obtain ⟨n, hn⟩ := hspelled
    rw [hn, Number.ofNat]
    split
    · rfl
    · split <;> rfl
  | single | double => rfl

/-- Where all symbols can be stored, the value of an expression can be, unless the expression is a
call of something that returns none or several. -/
theorem isStorable_of_value (hscopes : scopes.Every Symbol.IsStorable) (hspelled : WellSpelled e)
    (h : (e.value scopes).outcome = .ok typed) :
    typed.type.isReturned = true ∧ (typed.type.isStorable = true ∨ e.lacksValue = true) := by
  induction e using inductionOnChildren generalizing typed with
  | step e ih =>
    have hsingle : typed.type.isStorable = true →
        typed.type.isReturned = true ∧ (typed.type.isStorable = true ∨ e.lacksValue = true) :=
      fun hstorable => ⟨Ty.isReturned_of_isStorable hstorable, .inl hstorable⟩
    have hreturned : ∀ part ∈ e.children, ∀ whole, (part.value scopes).outcome = .ok whole →
        whole.type.isReturned = true :=
      fun part hpart whole hwhole => (ih part hpart (hspelled.child hpart) hwhole).1
    cases ValueStep.of_value h with
    | number hnumber => exact hsingle (isStorable_of_number (hspelled _ .self) hnumber)
    | literal hliteral =>
      refine hsingle ?_
      rcases Typed.eq_of_ofLiteral hliteral with ⟨_, -, rfl⟩ | ⟨_, -, -, rfl⟩ | ⟨_, -, rfl⟩ <;> rfl
    | ident hname =>
      obtain ⟨symbol, hsymbol, rfl⟩ := Typed.eq_of_ofName hname
      exact hsingle (hscopes.lookup hsymbol)
    | call _ hcall => exact isStorable_of_callFunction hcall
    | index hwhole _ hselect =>
      obtain ⟨-, element, helement, rfl⟩ := Typed.eq_of_elementAt hselect
      have hreceiver := hreturned _ (by simp [children]) _ hwhole
      exact hsingle (Ty.isStorable_of_elementType hreceiver helement)
    | method hwhole _ hcall =>
      exact isStorable_of_callMethod (hreturned _ (by simp [children]) _ hwhole) hcall
    | convert _ hconvert => exact hsingle (isStorable_of_convert hconvert)
    | unary _ hunary =>
      obtain ⟨hbool | hnumeric, rfl⟩ := Typed.eq_of_applyUnary hunary
      · exact hsingle (by dsimp only; rw [hbool]; rfl)
      · exact hsingle (Ty.isStorable_of_isNumeric hnumeric)
    | stepBefore _ hstep | stepAfter _ hstep =>
      obtain ⟨-, -, hnumeric, rfl⟩ := Typed.eq_of_applyStep hstep
      exact hsingle (Ty.isStorable_of_isNumeric hnumeric)
    | binary _ _ hbinary =>
      obtain ⟨type, htype, rfl⟩ := Typed.eq_of_applyBinary hbinary
      exact hsingle (Ty.isStorable_of_resultType htype)

/-- A type that is written out can be stored, since `void` is refused. By induction on its
dimensions, each of which makes an array of what can be stored. -/
theorem isStorable_of_resolveType {type : Ty} (h : (e.resolveType scopes).outcome = .ok type) :
    type.isStorable = true := by
  have hdimensioned : ∀ {base type : Ty} {sizes : List (Option Expr)}, base.isStorable = true →
      (dimensioned scopes base sizes).outcome = .ok type → type.isStorable = true := by
    intro base type sizes hbase h
    induction sizes generalizing type with
    | nil =>
      cases h
      exact hbase
    | cons level sizes ih =>
      simp only [dimensioned, Checked.outcome_bind_eq_ok_iff] at h
      obtain ⟨element, helement, h⟩ := h
      have hstorable : element.isStorable = true := ih helement
      cases level with
      | none =>
        cases h
        exact hstorable
      | some size =>
        simp only [Checked.outcome_bind_eq_ok_iff] at h
        obtain ⟨_, -, heq⟩ := h
        cases heq
        exact hstorable
  unfold resolveType at h
  split at h
  · simp at h
  · rename_i name sizes position hvoid
    exact hdimensioned (by simpa [Ty.isStorable] using hvoid) h
  · simp at h

end Values

section Initializers

variable {scopes : Scopes} {e : Expr} {typed : Typed}

/-- The type that two elements share is the later one's, or the common type of two primitive ones. -/
theorem joinElement_cases {current : Option Ty} {next joined : Ty} {position : Position}
    (h : (joinElement current next position).outcome = .ok joined) :
    joined = next ∨ ∃ a b common, current = some (.primitive a) ∧ next = .primitive b ∧
      Primitive.common a b = some common ∧ joined = .primitive common := by
  unfold joinElement at h
  split at h
  · cases h
    exact .inl rfl
  · split at h
    · rename_i hsame
      cases h
      exact .inl hsame
    · split at h
      · split at h
        · rename_i common hcommon
          cases h
          exact .inr ⟨_, _, common, rfl, rfl, hcommon, rfl⟩
        · simp at h
      · simp at h

/-- What holds of the types of all elements holds of the type they share, if it holds of every common
type of two primitive ones. -/
theorem holds_of_elementType {P : Ty → Prop} {current : Option Ty} {element : Ty} {es : List Expr}
    (hcommons : ∀ {a b common}, Primitive.common a b = some common → P (.primitive common))
    (hes : ∀ e ∈ es, ∀ typed, (initializer scopes none e).outcome = .ok typed → P typed.type)
    (hcurrent : ∀ type, current = some type → P type)
    (h : (elementType scopes current es).outcome = .ok (some element)) : P element := by
  induction es generalizing current with
  | nil => exact hcurrent element (Except.ok.inj h)
  | cons e es ih =>
    rw [List.forall_mem_cons] at hes
    simp only [elementType, Checked.outcome_bind_eq_ok_iff] at h
    obtain ⟨typed, htyped, joined, hjoined, h⟩ := h
    refine ih hes.2 (fun type htype => ?_) h
    cases htype
    rcases joinElement_cases hjoined with rfl | ⟨a, b, common, -, -, hcommon, rfl⟩
    · exact hes.1 typed htyped
    · exact hcommons hcommon

/-- Expressions have values if each of them has. -/
theorem haveValues_iff {es : List Expr} :
    haveValues es = true ↔ ∀ e ∈ es, e.lacksValue = false ∧ e.hasValues = true := by
  induction es with
  | nil => simp [haveValues]
  | cons e es ih => simp [haveValues, ih, and_assoc]

/-- What stands behind an equal sign, without a type, can be stored if the elements of its literals
have values, and unless it is a call that has none itself. -/
theorem isStorable_of_initializer (hscopes : scopes.Every Symbol.IsStorable)
    (hspelled : WellSpelled e) (hvalues : e.hasValues = true)
    (h : (initializer scopes none e).outcome = .ok typed) :
    typed.type.isReturned = true ∧ (typed.type.isStorable = true ∨ e.lacksValue = true) := by
  induction e using inductionOnChildren generalizing typed with
  | step e ih =>
    cases e with
    | null => simp [initializer] at h
    | array elements position =>
      obtain ⟨element, type, texts, ⟨helement, rfl⟩, -, rfl⟩ := eq_of_initializer_array h
      have hstorable : element.isStorable = true := by
        refine holds_of_elementType (P := fun type => type.isStorable = true)
          Ty.isStorable_of_common (fun part hpart typed htyped => ?_) (by simp) helement
        obtain ⟨hvalue, hinner⟩ := haveValues_iff.1 hvalues part hpart
        rcases (ih part hpart (hspelled.child hpart) hinner htyped).2 with hstorable | hlacks
        · exact hstorable
        · rw [hlacks] at hvalue
          cases hvalue
      exact ⟨Ty.isReturned_of_isStorable hstorable, .inl hstorable⟩
    | _ => exact isStorable_of_value hscopes hspelled h

end Initializers

end Expr

namespace Declaration

variable {scopes : Scopes} {d : Declaration} {plan : Plan}

/-- A declared type can be stored. -/
theorem isStorable_of_declared {type : Option Ty} {resolved : Ty}
    (h : d.type.elim (type = none) (fun t =>
      ∃ resolved, (t.resolveType scopes).outcome = .ok resolved ∧ type = some resolved))
    (htype : type = some resolved) : resolved.isStorable = true := by
  cases hd : d.type with
  | none =>
    rw [hd] at h
    rw [h] at htype
    cases htype
  | some t =>
    rw [hd] at h
    obtain ⟨own, hown, rfl⟩ := h
    cases htype
    exact Expr.isStorable_of_resolveType hown

/-- A value from which a type is inferred has one that can be stored: `void`, several values and
`null` are refused one by one. -/
theorem isStorable_of_inferredType {value : Typed} {name : String} {position : Position} {type : Ty}
    (hvalue : value.type.isReturned = true)
    (h : (inferredType value name position).outcome = .ok type) : type.isStorable = true := by
  unfold inferredType at h
  split at h
  · simp at h
  · simp at h
  · rename_i hvoid htuple
    cases h
    cases hown : value.type with
    | primitive p =>
      have hp : p ≠ .void := fun hp => hvoid (by rw [hown, hp])
      simpa [Ty.isStorable] using hp
    | array element size =>
      rw [hown] at hvalue
      exact hvalue
    | tuple items => exact absurd hown (htuple items)
    | null =>
      rw [hown] at hvalue
      cases hvalue

/-- Where all symbols can be stored, the names of a declaration can be, if literals without a
declared type have elements with values. -/
theorem isStorable_of_plan (hscopes : scopes.Every Symbol.IsStorable)
    (hspelled : ∀ e ∈ d.initializers, e.WellSpelled)
    (hvalues : d.type = none → ∀ e ∈ d.initializers, e.hasValues = true)
    (h : (d.plan scopes).outcome = .ok plan) : ∀ b ∈ plan.bindings, b.type.isStorable = true := by
  obtain ⟨type, htype, hcases⟩ := plan_cases h
  rcases hcases with ⟨-, hplan⟩ | ⟨call, members, position, hunpacked, hplan⟩ | ⟨first, -, hplan⟩
  · obtain ⟨own, hown, rfl⟩ := eq_of_planDefault hplan
    simpa using fun _ _ => isStorable_of_declared htype hown
  · obtain ⟨e, hsingle, hcall, hmembers, -⟩ := eq_of_unpackable hunpacked
    have hreturned := (Expr.isStorable_of_value hscopes (hspelled e (by simp [hsingle])) hcall).1
    rw [hmembers, Ty.isReturned, List.all_eq_true] at hreturned
    intro b hb
    obtain ⟨name, -, member, hmember, rfl⟩ := exists_of_mem_planUnpacked hplan b hb
    cases type with
    | none => exact hreturned member hmember
    | some resolved => exact isStorable_of_declared htype rfl
  · obtain ⟨-, values, hinitial, hnames⟩ := planInitialized_eq_ok hplan
    intro b hb
    obtain ⟨name, ⟨e, value⟩, hentry, line, hname⟩ := exists_of_mem_planNames hnames b hb
    obtain ⟨-, he, htyped⟩ := initializer_of_entry hinitial _ hentry
    obtain ⟨own, text, hown, -, -, rfl⟩ := eq_of_planName hname
    cases type with
    | some resolved =>
      cases hown
      exact isStorable_of_declared htype rfl
    | none =>
      -- A name without a resolved type has none written down, so its initial value decides.
      have hd : d.type = none := by
        cases hd : d.type with
        | none => rfl
        | some t =>
          rw [hd] at htype
          obtain ⟨_, -, hsome⟩ := htype
          cases hsome
      have hvalue := Expr.isStorable_of_initializer hscopes (hspelled e he) (hvalues hd e he) htyped
      exact isStorable_of_inferredType hvalue.1 hown

end Declaration

/-- Whether the literals in a statement from which a type is inferred have elements with values. -/
def Statement.infersValues (s : Statement) : Bool :=
  match Declaration.read s with
  | .ok d => d.type.isSome || d.initializers.all Expr.hasValues
  | .error _ => true

/-- A declaration that infers the types of values has initial values that are such. -/
theorem Statement.hasValues_of_infersValues {s : Statement} {d : Declaration} {e : Expr}
    (h : s.infersValues = true) (hread : Declaration.read s = .ok d) (htype : d.type = none)
    (he : e ∈ d.initializers) : e.hasValues = true := by
  rw [infersValues, hread] at h
  simp only [htype, Option.isSome_none, Bool.false_or, List.all_eq_true] at h
  exact h e he

/-- Wherever the emission of a source has got to, every variable and every constant in every open
scope has a type that can be stored, if no declaration so far infers a type from an array literal
with a call among its elements that returns nothing or several values. -/
theorem Source.declares_storable {source : Source} {tokens : List Token}
    {before after : List Statement} {deny : Bool} {e : Emission}
    (htokens : source.significant = .ok tokens)
    (hstatements : source.statements tokens = .ok (before ++ after))
    (hrun : Emission.run deny {} before = .ok e)
    (hvalues : ∀ s ∈ before, s.infersValues = true) :
    ∀ scope ∈ e.scopes.all, ∀ entry ∈ scope.symbols, entry.2.type.isStorable = true := by
  have hgrants : Emission.Grants Symbol.IsStorable :=
    ⟨rfl, fun type htype => Ty.isStorable_of_isNumeric htype⟩
  refine (Emission.keeps_empty.run hgrants (fun s hs scopes hscopes d plan _ hread hplan b hb => ?_)
    hrun).scopes
  have hnamed := named_of_statements htokens hstatements s (by simp [hs])
  have hspelled := (Declaration.wellSpelled_of_read hread hnamed).1
  have hstorable := Declaration.isStorable_of_plan hscopes hspelled
    (fun htype e he => Statement.hasValues_of_infersValues (hvalues s hs) hread htype he) hplan b hb
  unfold Symbol.IsStorable Binding.symbol
  split <;> exact hstorable

/-- A program inside its main block, with a matrix and the two values of one call. -/
private def matrixProgram : Source :=
  ⟨"matrix", "main\x7bvar a=[[1,2],[3,4]];var q,r=divmod(7,2)"⟩

/-- The type of the matrix is inferred from its rows, and theirs from their numbers. -/
theorem matrixProgram_declares_storable :
    ∃ tokens statements e, matrixProgram.significant = .ok tokens ∧
      matrixProgram.statements tokens = .ok (statements ++ []) ∧
      Emission.run false {} statements = .ok e ∧
      (∀ s ∈ statements, s.infersValues = true) ∧
      ∀ scope ∈ e.scopes.all, ∀ entry ∈ scope.symbols, entry.2.type.isStorable = true := by
  have hchecked : (do
      let tokens ← matrixProgram.significant
      let statements ← matrixProgram.statements tokens
      let _ ← (Emission.run false {} statements).mapError matrixProgram.failure
      pure (statements.all Statement.infersValues)).toOption = some true := by decide +kernel
  have hok := eq_ok_of_toOption hchecked
  simp only [bind_eq_ok_iff, mapError_eq_ok_iff] at hok
  obtain ⟨tokens, htokens, statements, hstatements, e, hrun, hall⟩ := hok
  rw [← List.append_nil statements] at hstatements
  have hvalues := List.all_eq_true.1 (Except.ok.inj hall)
  exact ⟨tokens, statements, e, htokens, hstatements, hrun, hvalues,
    Source.declares_storable htokens hstatements hrun hvalues⟩

/-- A program that prints where it should have an element. -/
private def printedElement : Source :=
  ⟨"printed", "main \x7b\nvar x = [println()]\n\x7d\n"⟩

/-- The literal `[println()]` makes an array of type `void[1]`, and the program compiles. -/
theorem printedElement_declares_void :
    (printedElement.compile {}).isOk = true ∧
      ∃ tokens before after e symbol, printedElement.significant = .ok tokens ∧
        printedElement.statements tokens = .ok (before ++ after) ∧
        Emission.run false {} before = .ok e ∧ ("x", symbol) ∈ e.scopes.current.symbols ∧
        symbol.type = .array .void (some 1) ∧ symbol.type.isStorable = false := by
  have hchecked : (do
      let tokens ← printedElement.significant
      let statements ← printedElement.statements tokens
      let e ← (Emission.run false {} (statements.take 3)).mapError printedElement.failure
      pure (e.scopes.current.symbols.head?)).toOption =
        some (some ("x", ⟨.array .void (some 1), none, true⟩)) := by decide +kernel
  have hok := eq_ok_of_toOption hchecked
  simp only [bind_eq_ok_iff, mapError_eq_ok_iff] at hok
  obtain ⟨tokens, htokens, statements, hstatements, e, hrun, hfirst⟩ := hok
  rw [← List.take_append_drop 3 statements] at hstatements
  exact ⟨by decide +kernel, tokens, _, _, e, _, htokens, hstatements, hrun,
    List.mem_of_mem_head? (Except.ok.inj hfirst), rfl, rfl⟩

end Sprout
