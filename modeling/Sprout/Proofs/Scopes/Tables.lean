import Mathlib.Data.List.Forall2
import Std.Data.HashMap
import Sprout.Proofs.Scopes.History

namespace Sprout

/-- A scope with one table for its variables and another one for its constants. A variable has a
type and may be mutable, a constant has a type and a value. Nothing in this form keeps a name from
being in both tables. -/
structure Tables where
  kind : Scope.Kind
  vars : Std.HashMap String (Ty × Bool) := {}
  consts : Std.HashMap String (Ty × Constant) := {}

/-- The open scopes in that form, the innermost one and those around it from the inside out. -/
structure TableStack where
  current : Tables := { kind := .global }
  enclosing : List Tables := []

namespace Tables

/-- What a name stands for. The variables are asked first. -/
def find? (t : Tables) (name : String) : Option Symbol :=
  match t.vars[name]? with
  | some (type, mutable) => some ⟨type, none, mutable⟩
  | none => t.consts[name]?.map fun (type, value) => ⟨type, some value, false⟩

/-- Whether one of the tables has a name. -/
def contains (t : Tables) (name : String) : Bool :=
  t.vars.contains name || t.consts.contains name

/-- Whether the two tables say of every name what the one list of a scope says. -/
structure Refines (t : Tables) (s : Scope) : Prop where
  kind : t.kind = s.kind
  find? : ∀ name, t.find? name = s.find? name

/-- The two tables are those of one name space: a name is in one of them exactly if it stands for
something. -/
theorem contains_eq (t : Tables) (name : String) : t.contains name = (t.find? name).isSome := by
  rw [contains, find?, Std.HashMap.contains_eq_isSome_getElem?,
    Std.HashMap.contains_eq_isSome_getElem?]
  cases t.vars[name]? <;> simp

namespace Refines

variable {t : Tables} {s : Scope} {ts : List Tables} {scopes : List Scope}

/-- A name is in one of the tables if it is in the list. -/
theorem contains (h : t.Refines s) (name : String) : t.contains name = s.contains name := by
  rw [contains_eq, h.find?, Scope.contains]

/-- Two empty tables are a scope in which nothing has been declared. -/
theorem empty (kind : Scope.Kind) : Refines { kind } { kind } :=
  ⟨rfl, fun name => by simp [Tables.find?, Scope.find?]⟩

/-- A variable that is added to its table hides whatever the tables say of its name, as the head of
the list does. -/
theorem insertVariable (h : t.Refines s) (name : String) (type : Ty) (mutable : Bool) :
    Refines { t with vars := t.vars.insert name (type, mutable) }
      { s with symbols := (name, ⟨type, none, mutable⟩) :: s.symbols } := by
  refine ⟨h.kind, fun other => ?_⟩
  have hother := h.find? other
  simp only [Tables.find?, Scope.find?] at hother ⊢
  rw [Std.HashMap.getElem?_insert, List.lookup_cons]
  by_cases hname : name = other
  · simp [hname]
  · rw [if_neg (by simpa using hname), hother, beq_false_of_ne (Ne.symm hname)]

/-- A constant is found in its table only if no variable has its name, so the name must be free. -/
theorem insertConstant (h : t.Refines s) {name : String} (hfree : s.contains name = false)
    (type : Ty) (value : Constant) :
    Refines { t with consts := t.consts.insert name (type, value) }
      { s with symbols := (name, ⟨type, some value, false⟩) :: s.symbols } := by
  rw [← h.contains, Tables.contains, Bool.or_eq_false_iff] at hfree
  have hvariable : t.vars[name]? = none := by simpa using hfree.1
  refine ⟨h.kind, fun other => ?_⟩
  have hother := h.find? other
  simp only [Tables.find?, Scope.find?] at hother ⊢
  rw [Std.HashMap.getElem?_insert, List.lookup_cons]
  by_cases hname : name = other
  · simp [← hname, hvariable]
  · rw [if_neg (by simpa using hname), hother, beq_false_of_ne (Ne.symm hname)]

/-- Looking through the tables of several scopes, from the inside out, finds what looking through
their lists does. -/
theorem findSome? (h : List.Forall₂ Refines ts scopes) (name : String) :
    ts.findSome? (·.find? name) = scopes.findSome? (·.find? name) := by
  induction h with
  | nil => rfl
  | cons head _ ih => rw [List.findSome?_cons, List.findSome?_cons, head.find?, ih]

/-- A name is in the tables of one of several scopes if it is in their lists. -/
theorem any (h : List.Forall₂ Refines ts scopes) (name : String) :
    ts.any (·.contains name) = scopes.any (·.contains name) := by
  induction h with
  | nil => rfl
  | cons head _ ih => rw [List.any_cons, List.any_cons, head.contains, ih]

end Refines

end Tables

namespace TableStack

/-- How many scopes are open inside the global one. -/
def depth (s : TableStack) : Nat :=
  s.enclosing.length

/-- Opens a block of a kind. -/
def enter (s : TableStack) (kind : Scope.Kind) : TableStack :=
  ⟨{ kind }, s.current :: s.enclosing⟩

/-- Closes the innermost block, with both of its tables. -/
def leave (s : TableStack) : Except Violation (Tables × TableStack) :=
  match s.enclosing with
  | [] => .error (.unplaced .unmatchedBrace)
  | outer :: others => .ok (s.current, ⟨outer, others⟩)

/-- What a name means: its innermost declaration. -/
def lookup (s : TableStack) (name : String) : Option Symbol :=
  (s.current :: s.enclosing).findSome? (·.find? name)

/-- Whether a name is declared in an enclosing scope and not in the innermost one. -/
def isShadowing (s : TableStack) (name : String) : Bool :=
  !s.current.contains name && s.enclosing.any (·.contains name)

/-- Refuses a name that one of the two innermost tables has, and else says whether it hides one of
an enclosing scope. -/
def checkFree (s : TableStack) (name : String) : Except Violation Declared :=
  if s.current.contains name then .error (.unplaced (.alreadyDeclared name))
  else .ok (if s.isShadowing name then .shadowing else .fresh)

/-- Declares a variable. -/
def declareVariable (s : TableStack) (name : String) (type : Ty) (mutable : Bool) :
    Except Violation (Declared × TableStack) := do
  let declared ← s.checkFree name
  let vars := s.current.vars.insert name (type, mutable)
  .ok (declared, { s with current := { s.current with vars } })

/-- Declares a constant with its value. -/
def declareConstant (s : TableStack) (name : String) (type : Ty) (value : Constant) :
    Except Violation (Declared × TableStack) := do
  let declared ← s.checkFree name
  let consts := s.current.consts.insert name (type, value)
  .ok (declared, { s with current := { s.current with consts } })

/-- What a declaration answers, and the scopes behind an action. -/
def perform (s : TableStack) : Scopes.Action → Except Violation (Option Declared × TableStack)
  | .enter kind => .ok (none, s.enter kind)
  | .leave => s.leave.map fun (_, s') => (none, s')
  | .declareVariable name type mutable =>
    (s.declareVariable name type mutable).map fun (declared, s') => (some declared, s')
  | .declareConstant name type value =>
    (s.declareConstant name type value).map fun (declared, s') => (some declared, s')

/-- The scopes behind an action. One that fails leaves them as they are. -/
def act (s : TableStack) (a : Scopes.Action) : TableStack :=
  match s.perform a with
  | .ok (_, s') => s'
  | .error _ => s

/-- The scopes behind a history, which starts with the global scope alone. -/
def after (history : List Scopes.Action) : TableStack :=
  history.foldl act {}

/-- Whether each scope of a stack says what the scope at its place says. -/
structure Refines (tables : TableStack) (scopes : Scopes) : Prop where
  current : tables.current.Refines scopes.current
  enclosing : List.Forall₂ Tables.Refines tables.enclosing scopes.enclosing

namespace Refines

variable {tables : TableStack} {scopes : Scopes} (h : tables.Refines scopes)

include h

/-- Both forms have as many scopes open. -/
theorem depth : tables.depth = scopes.depth :=
  h.enclosing.length_eq

/-- A name means the same in both forms. -/
theorem lookup (name : String) : tables.lookup name = scopes.lookup name :=
  Tables.Refines.findSome? (.cons h.current h.enclosing) name

/-- A name hides one of an enclosing scope in both forms alike, since it is looked for in each scope
of either. -/
theorem isShadowing (name : String) : tables.isShadowing name = scopes.isShadowing name := by
  rw [TableStack.isShadowing, Scopes.isShadowing, h.current.contains,
    Tables.Refines.any h.enclosing]

/-- A declaration is refused by both forms, for the same reason, or answered by both alike. -/
theorem declare {name : String} {symbol : Symbol} {current : Tables}
    (hcurrent : scopes.current.contains name = false →
      current.Refines { scopes.current with symbols := (name, symbol) :: scopes.current.symbols }) :
    (∃ violation, tables.checkFree name = .error violation ∧
        scopes.declare name symbol = .error violation) ∨
      ∃ declared scopes', tables.checkFree name = .ok declared ∧
        scopes.declare name symbol = .ok (declared, scopes') ∧
        Refines { tables with current } scopes' := by
  rw [checkFree, Scopes.declare, h.current.contains, h.isShadowing]
  cases hcontains : scopes.current.contains name with
  | true => exact .inl ⟨_, rfl, rfl⟩
  | false => exact .inr ⟨_, _, rfl, rfl, hcurrent hcontains, h.enclosing⟩

/-- An action is refused by both forms, for the same reason, or answered by both alike. Behind it
the tables say again what the scopes say. -/
theorem perform (a : Scopes.Action) :
    (∃ violation, tables.perform a = .error violation ∧ a.perform scopes = .error violation) ∨
      ∃ answer tables' scopes', tables.perform a = .ok (answer, tables') ∧
        a.perform scopes = .ok (answer, scopes') ∧ Refines tables' scopes' := by
  cases a with
  | enter kind =>
    exact .inr ⟨none, _, _, rfl, rfl, .empty kind, .cons h.current h.enclosing⟩
  | leave =>
    obtain ⟨current, enclosing⟩ := tables
    obtain ⟨current', enclosing'⟩ := scopes
    cases h.enclosing with
    | nil => exact .inl ⟨_, rfl, rfl⟩
    | cons outer others => exact .inr ⟨none, _, _, rfl, rfl, outer, others⟩
  | declareVariable name type mutable =>
    rw [TableStack.perform, Scopes.Action.perform, declareVariable, Scopes.declareVariable]
    rcases h.declare fun _ => h.current.insertVariable name type mutable with
      ⟨violation, hcheck, hdeclare⟩ | ⟨declared, scopes', hcheck, hdeclare, hrefines⟩ <;>
      rw [hcheck, hdeclare]
    · exact .inl ⟨violation, rfl, rfl⟩
    · exact .inr ⟨some declared, _, scopes', rfl, rfl, hrefines⟩
  | declareConstant name type value =>
    rw [TableStack.perform, Scopes.Action.perform, declareConstant, Scopes.declareConstant]
    rcases h.declare fun hfree => h.current.insertConstant hfree type value with
      ⟨violation, hcheck, hdeclare⟩ | ⟨declared, scopes', hcheck, hdeclare, hrefines⟩ <;>
      rw [hcheck, hdeclare]
    · exact .inl ⟨violation, rfl, rfl⟩
    · exact .inr ⟨some declared, _, scopes', rfl, rfl, hrefines⟩

/-- Behind an action, refused or not, the tables say again what the scopes say. -/
theorem act (a : Scopes.Action) : (tables.act a).Refines (scopes.act a) := by
  rw [TableStack.act, Scopes.act]
  rcases h.perform a with
    ⟨violation, htables, hscopes⟩ | ⟨answer, tables', scopes', htables, hscopes, hrefines⟩ <;>
    rw [htables, hscopes]
  · exact h
  · exact hrefines

end Refines

/-- Behind every history the two tables of each scope say what its one list says, and answer the
next action alike. So variables and constants share one name space, although they are kept apart. -/
theorem refines_after (history : List Scopes.Action) :
    (after history).Refines (Scopes.after history) := by
  induction history using List.reverseRecOn with
  | nil => exact ⟨.empty .global, .nil⟩
  | append_singleton history a ih =>
    rw [after, List.foldl_append, Scopes.after_append]
    exact ih.act a

/-- Whether no name is in both tables of a scope, in any of the open ones. -/
def Apart (s : TableStack) : Prop :=
  ∀ t ∈ s.current :: s.enclosing, ∀ name,
    t.vars.contains name = true → t.consts.contains name = false

/-- A declaration is let through only if neither table has the name. -/
theorem free_of_checkFree {s : TableStack} {name : String} {declared : Declared}
    (h : s.checkFree name = .ok declared) :
    s.current.vars.contains name = false ∧ s.current.consts.contains name = false := by
  rw [checkFree] at h
  split at h
  · cases h
  · rename_i hfree
    simpa [Tables.contains] using hfree

/-- A declaration that is let through adds to one of the two innermost tables. -/
theorem act_eq_of_checkFree {s : TableStack} {name : String} {declared : Declared}
    (h : s.checkFree name = .ok declared) (type : Ty) :
    (∀ mutable, s.act (.declareVariable name type mutable) =
        { s with current := { s.current with vars := s.current.vars.insert name (type, mutable) } }) ∧
      ∀ value, s.act (.declareConstant name type value) =
        { s with current := { s.current with consts := s.current.consts.insert name (type, value) } } := by
  constructor <;> intro x
  · rw [act, perform, declareVariable, h]
    rfl
  · rw [act, perform, declareConstant, h]
    rfl

/-- What is refused leaves the tables as they are. -/
theorem act_eq_of_refused {s : TableStack} {a : Scopes.Action} {violation : Violation}
    (h : s.perform a = .error violation) : s.act a = s := by
  rw [act, h]

/-- No action puts a name into both tables of a scope. Both declarations look into both tables
before they add to one of them. -/
theorem apart_act {s : TableStack} (h : s.Apart) (a : Scopes.Action) : (s.act a).Apart := by
  have hcurrent := h s.current List.mem_cons_self
  have henclosing : ∀ t ∈ s.enclosing, _ := fun t ht => h t (List.mem_cons_of_mem _ ht)
  cases a with
  | enter kind =>
    refine List.forall_mem_cons.2 ⟨fun name hname => ?_, h⟩
    simp [act, perform, enter] at hname
  | leave =>
    obtain ⟨current, enclosing⟩ := s
    cases enclosing with
    | nil => exact h
    | cons outer others => exact henclosing
  | declareVariable name type mutable =>
    cases hcheck : s.checkFree name with
    | error violation =>
      rwa [act_eq_of_refused (by rw [perform, declareVariable, hcheck]; rfl)]
    | ok declared =>
      rw [(act_eq_of_checkFree hcheck type).1]
      refine List.forall_mem_cons.2 ⟨fun other hother => ?_, henclosing⟩
      rw [Std.HashMap.contains_insert, Bool.or_eq_true] at hother
      rcases hother with hname | hother
      · rw [← eq_of_beq hname]
        exact (free_of_checkFree hcheck).2
      · exact hcurrent other hother
  | declareConstant name type value =>
    cases hcheck : s.checkFree name with
    | error violation =>
      rwa [act_eq_of_refused (by rw [perform, declareConstant, hcheck]; rfl)]
    | ok declared =>
      rw [(act_eq_of_checkFree hcheck type).2]
      refine List.forall_mem_cons.2 ⟨fun other hother => ?_, henclosing⟩
      have hne : (name == other) = false := by
        refine beq_false_of_ne fun hname => ?_
        rw [← hname, (free_of_checkFree hcheck).1] at hother
        cases hother
      rw [Std.HashMap.contains_insert, hne, Bool.false_or]
      exact hcurrent other hother

/-- No history brings a name into both tables of a scope, although no form of the tables forbids
it: each of the two declarations looks into both tables first. -/
theorem apart_after (history : List Scopes.Action) : (after history).Apart := by
  induction history using List.reverseRecOn with
  | nil =>
    refine List.forall_mem_cons.2 ⟨fun name hname => ?_, by simp [after]⟩
    simp [after] at hname
  | append_singleton history a ih =>
    rw [after, List.foldl_append]
    exact apart_act ih a

end TableStack

end Sprout
