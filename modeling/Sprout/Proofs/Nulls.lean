import Sprout.Proofs.Storable

namespace Sprout

namespace Ty

mutual
/-- Whether the type of `null` occurs nowhere in a type. -/
def isNullFree : Ty → Bool
  | primitive _ => true
  | array element _ => isNullFree element
  | tuple items => areNullFree items
  | null => false
/-- Whether the type of `null` occurs nowhere in several types. -/
def areNullFree : List Ty → Bool
  | [] => true
  | item :: items => isNullFree item && areNullFree items
end

variable {type element : Ty}

/-- Types are free of null if each of them is. -/
theorem areNullFree_iff {items : List Ty} :
    areNullFree items = true ↔ ∀ item ∈ items, item.isNullFree = true := by
  induction items with
  | nil => simp [areNullFree]
  | cons item items ih => simp [areNullFree, ih]

/-- What can be stored is free of null. -/
theorem isNullFree_of_isStorable (h : type.isStorable = true) : type.isNullFree = true := by
  induction type using isStorable.induct with
  | case1 => rfl
  | case2 element size ih => exact ih h
  | case3 | case4 => cases h

/-- The elements of a type without null have no null. -/
theorem isNullFree_of_elementType (h : type.isNullFree = true)
    (helement : Typed.elementType? type = some element) : element.isNullFree = true := by
  unfold Typed.elementType? at helement
  split at helement
  · cases helement
    exact h
  · cases helement
    rfl
  · cases helement

/-- A builtin returns what is free of `null` if its receiver is. -/
theorem isNullFree_of_returns (returns : Builtin.Returns) {receiver : Option Ty}
    (h : ∀ type, receiver = some type → type.isNullFree = true) :
    (returns.type (receiver.bind element?)).isNullFree = true := by
  cases returns with
  | element =>
    cases receiver with
    | none => rfl
    | some type =>
      cases type with
      | array element size => exact h (array element size) rfl
      | _ => rfl
  | _ => rfl

end Ty

/-- The symbols of a program: their types are free of `null`. -/
def Symbol.IsNullFree (symbol : Symbol) : Prop :=
  symbol.type.isNullFree = true

namespace Expr

variable {scopes : Scopes} {e : Expr} {typed : Typed}

/-- Values have types that are free of `null`, by induction on the expression: the word is refused
as a value, and builtins return what their receivers hold, or a type without it. -/
theorem isNullFree_of_value (hscopes : scopes.Every Symbol.IsNullFree)
    (h : (e.value scopes).outcome = .ok typed) : typed.type.isNullFree = true := by
  induction e using inductionOnChildren generalizing typed with
  | step e ih =>
    cases ValueStep.of_value h with
    | number hnumber =>
      obtain ⟨constant, rfl⟩ := Typed.eq_of_ofNumber hnumber
      rfl
    | literal hliteral =>
      rcases Typed.eq_of_ofLiteral hliteral with ⟨_, -, rfl⟩ | ⟨_, -, -, rfl⟩ | ⟨_, -, rfl⟩ <;> rfl
    | ident hname =>
      obtain ⟨symbol, hsymbol, rfl⟩ := Typed.eq_of_ofName hname
      exact hscopes.lookup hsymbol
    | call _ hcall =>
      obtain ⟨resolved, hresolved, rfl⟩ := Typed.eq_of_callFunction hcall
      obtain ⟨b, -, -, -, -, -, hresult⟩ := Signature.exists_builtin_of_resolve hresolved
      dsimp only
      rw [hresult]
      exact Ty.isNullFree_of_returns b.returns (by simp)
    | index hwhole _ hselect =>
      obtain ⟨-, element, helement, rfl⟩ := Typed.eq_of_elementAt hselect
      exact Ty.isNullFree_of_elementType (ih _ (by simp [children]) hwhole) helement
    | method hwhole _ hcall =>
      have hreceiver := ih _ (by simp [children]) hwhole
      rcases Typed.eq_of_callMethod hcall with
        ⟨offset, -, -, hselect⟩ | ⟨-, resolved, hresolved, -, rfl⟩
      · obtain ⟨-, element, helement, rfl⟩ := Typed.eq_of_elementAt hselect
        exact Ty.isNullFree_of_elementType hreceiver helement
      · obtain ⟨b, -, -, -, -, -, hresult⟩ := Signature.exists_builtin_of_resolve hresolved
        dsimp only
        rw [hresult]
        refine Ty.isNullFree_of_returns b.returns fun type htype => ?_
        cases htype
        exact hreceiver
    | convert _ hconvert => exact Ty.isNullFree_of_isStorable (isStorable_of_convert hconvert)
    | unary hinner hunary =>
      have hfree := ih _ (by simp [children]) hinner
      obtain ⟨-, rfl⟩ := Typed.eq_of_applyUnary hunary
      exact hfree
    | stepBefore hinner hstep | stepAfter hinner hstep =>
      have hfree := ih _ (by simp [children]) hinner
      obtain ⟨-, -, -, rfl⟩ := Typed.eq_of_applyStep hstep
      exact hfree
    | binary _ _ hbinary =>
      obtain ⟨type, htype, rfl⟩ := Typed.eq_of_applyBinary hbinary
      exact Ty.isNullFree_of_isStorable (Ty.isStorable_of_resultType htype)

/-- Without a declared type, what stands behind an equal sign has one that is free of `null`. -/
theorem isNullFree_of_initializer (hscopes : scopes.Every Symbol.IsNullFree)
    (h : (initializer scopes none e).outcome = .ok typed) : typed.type.isNullFree = true := by
  induction e using inductionOnChildren generalizing typed with
  | step e ih =>
    cases e with
    | null => simp [initializer] at h
    | array elements position =>
      obtain ⟨element, type, texts, ⟨helement, rfl⟩, -, rfl⟩ := eq_of_initializer_array h
      have hfree : element.isNullFree = true :=
        holds_of_elementType (P := fun type => type.isNullFree = true) (fun _ => rfl)
          (fun part hpart typed htyped => ih part hpart htyped) (by simp) helement
      exact hfree
    | _ => exact isNullFree_of_value hscopes h

/-- Only the word `null` has the type of `null`. An array literal has the type of an array, and
everything else is a value. -/
theorem eq_null_of_isNull {target : Option Ty} (hscopes : scopes.Every Symbol.IsNullFree)
    (h : (initializer scopes target e).outcome = .ok typed) (hnull : typed.isNull = true) :
    ∃ p, e = .null p := by
  have htype : typed.type = .null := by simpa [Typed.isNull] using hnull
  cases e with
  | null p => exact ⟨p, rfl⟩
  | array elements p =>
    obtain ⟨element, type, texts, hcases, -, rfl⟩ := eq_of_initializer_array h
    cases target with
    | none =>
      rw [hcases.2] at htype
      cases htype
    | some asked =>
      dsimp only at htype
      subst htype
      simp only [Option.elim, arrayTarget] at hcases
      split at hcases
      · cases hcases
      · split at hcases
        · cases hcases
        · simp at hcases
      · simp at hcases
  | _ =>
    have hfree := isNullFree_of_value hscopes h
    rw [htype] at hfree
    cases hfree

end Expr

namespace Declaration

variable {scopes : Scopes} {d : Declaration} {plan : Plan}

/-- The names of a declaration have types that are free of `null`: the declared type, what a call
returns, or the type of an initial value, for which `null` is refused. -/
theorem isNullFree_of_plan (hscopes : scopes.Every Symbol.IsNullFree)
    (h : (d.plan scopes).outcome = .ok plan) : ∀ b ∈ plan.bindings, b.type.isNullFree = true := by
  obtain ⟨type, htype, hcases⟩ := plan_cases h
  have hdeclared : ∀ resolved, type = some resolved → resolved.isNullFree = true :=
    fun resolved hresolved =>
      Ty.isNullFree_of_isStorable (isStorable_of_declared htype hresolved)
  rcases hcases with ⟨-, hplan⟩ | ⟨call, members, position, hunpacked, hplan⟩ | ⟨first, -, hplan⟩
  · obtain ⟨own, hown, rfl⟩ := eq_of_planDefault hplan
    simpa using fun _ _ => hdeclared own hown
  · obtain ⟨e, -, hcall, hmembers, -⟩ := eq_of_unpackable hunpacked
    have hfree := Expr.isNullFree_of_value hscopes hcall
    rw [hmembers, Ty.isNullFree, Ty.areNullFree_iff] at hfree
    intro b hb
    obtain ⟨name, -, member, hmember, rfl⟩ := exists_of_mem_planUnpacked hplan b hb
    cases type with
    | none => exact hfree member hmember
    | some resolved => exact hdeclared resolved rfl
  · obtain ⟨-, values, hinitial, hnames⟩ := planInitialized_eq_ok hplan
    intro b hb
    obtain ⟨name, ⟨e, value⟩, hentry, line, hname⟩ := exists_of_mem_planNames hnames b hb
    obtain ⟨-, -, hvalue⟩ := initializer_of_entry hinitial _ hentry
    obtain ⟨own, text, hown, -, -, rfl⟩ := eq_of_planName hname
    cases type with
    | some resolved =>
      cases hown
      exact hdeclared _ rfl
    | none =>
      have hfree := Expr.isNullFree_of_initializer hscopes hvalue
      simp only [Option.elim, inferredType] at hown
      split at hown
      · simp at hown
      · simp at hown
      · cases hown
        exact hfree

end Declaration

/-- Wherever a run has got to, the types of all symbols are free of `null`. The word stands for the
default value of a declared type, and is refused where there is none to be had. -/
theorem Emission.isNullFree_of_run {statements : List Statement} {deny : Bool} {e : Emission}
    (h : run deny {} statements = .ok e) : e.scopes.Every Symbol.IsNullFree := by
  have hgrants : Grants Symbol.IsNullFree :=
    ⟨rfl, fun type htype => Ty.isNullFree_of_isStorable (Ty.isStorable_of_isNumeric htype)⟩
  refine (keeps_empty.run hgrants (fun s _ scopes hscopes d plan _ _ hplan b hb => ?_) h).scopes
  have hfree := Declaration.isNullFree_of_plan hscopes hplan b hb
  unfold Symbol.IsNullFree Binding.symbol
  split <;> exact hfree

end Sprout
