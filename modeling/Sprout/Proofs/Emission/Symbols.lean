import Sprout.Proofs.Emission.Acceptance
import Sprout.Proofs.Scopes.History

namespace Sprout

/-- Every symbol in every open scope has the property `P`. -/
def Scopes.Every (P : Symbol → Prop) (scopes : Scopes) : Prop :=
  ∀ scope ∈ scopes.all, ∀ entry ∈ scope.symbols, P entry.2

namespace Scopes

variable {P : Symbol → Prop} {scopes scopes' : Scopes} {name : String} {symbol : Symbol}

/-- Before the first statement nothing is declared. -/
theorem every_empty : Scopes.Every P {} := by
  intro scope hscope entry hentry
  simp only [all, List.mem_singleton] at hscope
  subst hscope
  cases hentry

/-- A block that is opened declares nothing yet. -/
theorem Every.enter (h : scopes.Every P) (kind : Scope.Kind) : (scopes.enter kind).Every P := by
  intro scope hscope entry hentry
  rcases List.mem_cons.1 hscope with rfl | hscope
  · cases hentry
  · exact h scope hscope entry hentry

/-- Closing a block leaves the symbols of the others. -/
theorem Every.leave {closed : Scope} (h : scopes.Every P)
    (hleave : scopes.leave = .ok (closed, scopes')) : scopes'.Every P := by
  intro scope hscope
  refine h scope ?_
  rw [all_of_leave hleave]
  exact List.mem_cons_of_mem _ hscope

/-- A name that is declared with a symbol of the kind keeps all symbols of the kind. -/
theorem Every.declare {declared : Declared} (h : scopes.Every P) (hsymbol : P symbol)
    (hdeclare : scopes.declare name symbol = .ok (declared, scopes')) : scopes'.Every P := by
  obtain ⟨-, rfl⟩ := eq_of_declare hdeclare
  intro scope hscope entry hentry
  rcases List.mem_cons.1 hscope with rfl | hscope
  · rcases List.mem_cons.1 hentry with rfl | hentry
    · exact hsymbol
    · exact h _ (List.mem_cons_self ..) entry hentry
  · exact h scope (List.mem_cons_of_mem _ hscope) entry hentry

/-- Whatever a name means has the property. -/
theorem Every.lookup (h : scopes.Every P) (hlookup : scopes.lookup name = some symbol) :
    P symbol := by
  obtain ⟨scope, hscope, hfind⟩ := List.exists_of_findSome?_eq_some hlookup
  rw [Scope.find?, List.lookup_eq_some_iff] at hfind
  obtain ⟨before, after, hsymbols, -⟩ := hfind
  exact h scope hscope (name, symbol) (by simp [hsymbols])

end Scopes

/-- The symbol that a binding adds to its scope. -/
def Binding.symbol (mutable : Bool) (b : Binding) : Symbol :=
  match b.constant with
  | some value => ⟨b.type, some value, false⟩
  | none => ⟨b.type, none, mutable⟩

namespace Emission

/-- Every symbol has the property `P`, and so will the variable of a loop that waits for its brace
have. -/
structure Keeps (P : Symbol → Prop) (e : Emission) : Prop where
  scopes : e.scopes.Every P
  pending : ∀ header own, e.pending = some (.loop header) → header.declares = some own →
    P ⟨own.type, none, true⟩

/-- The symbols that do not come from declarations have the property `P`. -/
structure Grants (P : Symbol → Prop) : Prop where
  args : P ⟨.array .str none, none, false⟩
  loop : ∀ type : Ty, type.isNumeric = true → P ⟨type, none, true⟩

variable {P : Symbol → Prop} {deny : Bool} {e e' : Emission} {s : Statement}

/-- If no loop header waits, only the open scopes matter. -/
theorem Keeps.of_scopes (hscopes : e.scopes.Every P)
    (hpending : ∀ header, e.pending ≠ some (.loop header)) : e.Keeps P :=
  ⟨hscopes, fun header _ hheader => absurd hheader (hpending header)⟩

/-- A change of neither the scopes nor the header keeps the property. -/
theorem Keeps.congr (h : e.Keeps P) (hscopes : e'.scopes = e.scopes)
    (hpending : e'.pending = e.pending) : e'.Keeps P :=
  ⟨hscopes ▸ h.scopes, hpending ▸ h.pending⟩

/-- Declaring a name with its warning adds one symbol. -/
theorem Keeps.declare {name : String} {symbol : Symbol} {position : Position} (hkeeps : e.Keeps P)
    (hsymbol : P symbol) (h : e.declare deny name symbol position = .ok e') : e'.Keeps P := by
  obtain ⟨declared, scopes, hdeclare, rfl⟩ := eq_of_declare h
  exact ⟨hkeeps.scopes.declare hsymbol hdeclare, hkeeps.pending⟩

/-- Binding names adds their symbols, and no lines. -/
theorem Keeps.bind {mutable : Bool} {bindings : List Binding} (hkeeps : e.Keeps P)
    (hsymbols : ∀ b ∈ bindings, P (b.symbol mutable)) (h : e.bind deny mutable bindings = .ok e') :
    e'.Keeps P := by
  induction bindings generalizing e with
  | nil =>
    cases h
    exact hkeeps
  | cons b bindings ih =>
    rw [List.forall_mem_cons] at hsymbols
    simp only [Emission.bind, bind_eq_ok_iff, mapError_eq_ok_iff] at h
    obtain ⟨e₁, hfirst, hothers⟩ := h
    exact ih (hkeeps.declare hsymbols.1 hfirst) hsymbols.2 hothers

/-- A block that is opened declares nothing yet. -/
theorem Keeps.enter (hkeeps : e.Keeps P) (kind : Scope.Kind) (text : String) :
    (e.enter kind text).Keeps P :=
  ⟨hkeeps.scopes.enter kind, hkeeps.pending⟩

/-- The brace of the main block declares the arguments of the program. -/
theorem Keeps.openMain (hgrants : Grants P) (hkeeps : e.Keeps P) (h : e.openMain = .ok e') :
    e'.Keeps P := by
  obtain ⟨declared, scopes, hdeclare, rfl⟩ := eq_of_openMain h
  exact ⟨(hkeeps.scopes.enter .main).declare hgrants.args hdeclare, hkeeps.pending⟩

/-- The brace of a loop declares the variable of the loop. -/
theorem Keeps.openLoop {header : LoopHeader} (hkeeps : e.Keeps P)
    (hown : ∀ own, header.declares = some own → P ⟨own.type, none, true⟩)
    (h : e.openLoop deny header = .ok e') : e'.Keeps P := by
  obtain ⟨bound, args, -, -, ⟨-, rfl⟩ | ⟨own, hdeclares, h⟩⟩ := eq_of_openLoop h
  · exact hkeeps.enter .loop _
  · exact (hkeeps.enter .loop _).declare (hown own hdeclares) h

/-- The brace of the main block declares the arguments, and that of a loop its variable. No other
brace declares anything. -/
theorem Keeps.opens (hgrants : Grants P) (hkeeps : e.Keeps P) (h : Opens deny e e') :
    e'.Keeps P := by
  have hfree : Keeps P { e with pending := none } := .of_scopes hkeeps.scopes (by simp)
  cases h with
  | plain => exact hfree.enter .plain _
  | main _ hmain => exact hfree.openMain hgrants hmain
  | goesOn => exact .of_scopes (hkeeps.scopes.enter _) (by simp)
  | block => exact hfree.enter _ _
  | @loop header _ hpending hloop =>
    exact hfree.openLoop (fun own hown => hkeeps.pending header own hpending hown) hloop

/-- Closing a block leaves the symbols of the others. -/
theorem Keeps.closeBlock {position : Position} (hkeeps : e.Keeps P)
    (h : e.closeBlock position = .ok e') : e'.Keeps P := by
  obtain ⟨scope, scopes, inner, hleave, ⟨-, rfl⟩ | ⟨-, rfl⟩, rfl⟩ := eq_of_closeBlock h <;>
    exact ⟨hkeeps.scopes.leave hleave, hkeeps.pending⟩

/-- A loop header that declares its variable declares a number. -/
theorem isNumeric_of_loopHeader {scopes : Scopes} {keyword : Token} {run : List Token}
    {header : LoopHeader} {own : LoopVariable}
    (h : (loopHeader scopes keyword run).outcome = .ok header) (hown : header.declares = some own) :
    own.type.isNumeric = true := by
  obtain ⟨_, _, _, _, _, -, -, -, hcases⟩ := loopHeader_cases h
  rcases hcases with ⟨_, _, -, -, -, hdeclaring⟩ | ⟨-, hreusing⟩
  · obtain ⟨name, type, text, -, -, hnumeric, -, rfl⟩ := eq_of_declaringHeader hdeclaring
    cases hown
    exact hnumeric
  · obtain ⟨named, typed, text, -, -, -, -, -, rfl⟩ := eq_of_reusingHeader hreusing
    cases hown

/-- A loop header brings the variable that it will declare. -/
theorem Keeps.header (hgrants : Grants P) (hkeeps : e.Keeps P) (h : e.header deny s = .ok e') :
    e'.Keeps P := by
  obtain ⟨waiting, hwaiting, rfl⟩ := eq_of_header h
  refine ⟨hkeeps.scopes, fun header own hloop hown => ?_⟩
  cases hloop
  rcases headerOf_cases hwaiting with ⟨-, _, -, heq⟩ | ⟨-, _, -, heq⟩ | ⟨-, -, _, hheader, heq⟩ <;>
    cases heq
  exact hgrants.loop _ (isNumeric_of_loopHeader hheader hown)

/-- An `else` declares nothing. -/
theorem Keeps.alternative {closed : Option Scope.Kind} (hkeeps : e.Keeps P)
    (h : e.alternative deny closed s = .ok e') : e'.Keeps P := by
  obtain ⟨-, waiting, hwaiting, rfl⟩ := eq_of_alternative h
  refine .of_scopes hkeeps.scopes fun header hheader => ?_
  cases hheader
  rcases alternativeOf_cases hwaiting with ⟨-, heq⟩ | ⟨_, _, _, -, -, -, heq⟩ <;> cases heq

/-- A clause changes nothing about what its header will declare. -/
theorem Keeps.clause {part : Clause} (hkeeps : e.Keeps P) (h : e.clause deny part s = .ok e') :
    e'.Keeps P := by
  obtain ⟨_, _, header, -, -, hpending, -, rfl⟩ := eq_of_clause h
  refine ⟨hkeeps.scopes, fun waiting own hwaiting hown => ?_⟩
  cases hwaiting
  exact hkeeps.pending header own hpending (by simpa using hown)

/-- The scopes keep a property if the names of a declaration have it, along with what every program
declares. -/
theorem Keeps.step (hgrants : Grants P) (hkeeps : e.Keeps P)
    (hplan : ∀ d plan, s.kind = .declaration ∨ s.kind = .initialization →
      Declaration.read s = .ok d → (d.plan e.scopes).outcome = .ok plan →
      ∀ b ∈ plan.bindings, P (b.symbol (!d.isConstant)))
    (h : e.step deny s = .ok e') : e'.Keeps P := by
  have hopened : Keeps P { e with closed := none } := hkeeps.congr rfl rfl
  cases Act.of_step h with
  | start _ _ hstart =>
    obtain ⟨-, -, -, rfl⟩ := eq_of_start hstart
    exact .of_scopes hkeeps.scopes (by simp)
  | declaration hkind _ hdeclaration =>
    obtain ⟨d, plan, bound, hread, -, hplanned, hbind, rfl⟩ := eq_of_declaration hdeclaration
    have hbound : bound.Keeps P := by
      refine Keeps.bind ?_ (hplan d plan hkind hread hplanned) hbind
      exact hopened.congr rfl rfl
    exact hbound.congr rfl rfl
  | operation _ _ _ hoperation =>
    obtain ⟨_, _, -, -, rfl⟩ := eq_of_operation hoperation
    exact hopened.congr rfl rfl
  | assignment _ _ _ hassignment =>
    obtain ⟨_, _, -, -, rfl⟩ := eq_of_assignment hassignment
    exact hopened.congr rfl rfl
  | header _ _ _ hheader => exact hopened.header hgrants hheader
  | alternative _ _ _ halternative => exact hopened.alternative halternative
  | bound _ hclause | step _ hclause => exact hopened.clause hclause
  | jump _ _ _ hjump =>
    obtain ⟨-, -, rfl⟩ := eq_of_jump hjump
    exact hopened.congr rfl rfl
  | result _ _ _ hresult =>
    obtain ⟨-, _, -, rfl⟩ := eq_of_result hresult
    exact hopened.congr rfl rfl
  | opening _ _ hopens => exact hopened.opens hgrants hopens
  | closing _ _ hcloses => exact hopened.closeBlock hcloses

/-- Wherever a run has got to, every symbol in every open scope has the property. A symbol enters
the scopes in three ways only: as one of the names of a declaration, as the variable of a loop, or
as the arguments of the program. -/
theorem Keeps.run {statements : List Statement} (hgrants : Grants P) (hkeeps : e.Keeps P)
    (hplan : ∀ s ∈ statements, ∀ scopes : Scopes, scopes.Every P → ∀ d plan,
      s.kind = .declaration ∨ s.kind = .initialization → Declaration.read s = .ok d →
      (d.plan scopes).outcome = .ok plan → ∀ b ∈ plan.bindings, P (b.symbol (!d.isConstant)))
    (h : run deny e statements = .ok e') : e'.Keeps P :=
  run_induction h hkeeps fun s hs e₁ _ hkept hstep =>
    hkept.step hgrants (hplan s hs e₁.scopes hkept.scopes) hstep

/-- Nothing is declared before the first statement. -/
theorem keeps_empty : Keeps P {} :=
  .of_scopes Scopes.every_empty (by simp)

end Emission

end Sprout
