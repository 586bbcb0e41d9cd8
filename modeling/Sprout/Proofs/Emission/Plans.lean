import Mathlib.Data.List.Forall2
import Sprout.Emission.Assignment
import Sprout.Emission.Declaration
import Sprout.Proofs.Outcome

namespace Sprout

/-- Whatever stands in the second of two lists that go together belongs to something in the first. -/
theorem exists_left_of_mem {α β : Type} {R : α → β → Prop} {as : List α} {bs : List β}
    (h : List.Forall₂ R as bs) : ∀ b ∈ bs, ∃ a ∈ as, R a b := by
  induction h with
  | nil => simp
  | cons hfirst _ ih =>
    rw [List.forall_mem_cons]
    refine ⟨⟨_, List.mem_cons_self, hfirst⟩, fun b hb => ?_⟩
    obtain ⟨a, ha, hab⟩ := ih b hb
    exact ⟨a, List.mem_cons_of_mem _ ha, hab⟩

/-- Whatever stands in the first of two lists that go together has something in the second. -/
theorem exists_right_of_mem {α β : Type} {R : α → β → Prop} {as : List α} {bs : List β}
    (h : List.Forall₂ R as bs) : ∀ a ∈ as, ∃ b ∈ bs, R a b :=
  exists_left_of_mem (R := fun b a => R a b) (List.Forall₂.flip h)

variable {scopes : Scopes} {lines : List Line} {p : Position}

/-- What is unpacked is a single call with as many values as there are targets. -/
theorem eq_of_unpackable {count : Nat} {es : List Expr} {call : Typed} {members : List Ty}
    (h : (unpackable? scopes count es).outcome = .ok (some (call, members))) :
    ∃ e, es = [e] ∧ (e.value scopes).outcome = .ok call ∧ call.type = .tuple members ∧
      members.length = count := by
  unfold unpackable? at h
  split at h
  · rename_i e
    split at h
    · simp at h
    · simp only [Checked.outcome_bind_eq_ok_iff] at h
      obtain ⟨typed, htyped, h⟩ := h
      split at h
      · rename_i htype
        split at h
        · rename_i hlength
          cases h
          exact ⟨e, rfl, htyped, htype, hlength⟩
        · simp at h
      · simp at h
  · simp at h

/-- Sharing a single member adds no others. -/
theorem mem_of_mem_spread {α : Type} {count : Nat} {a : α} {as : List α} (h : a ∈ spread count as) :
    a ∈ as := by
  unfold spread at h
  split at h
  · simp [List.eq_of_mem_replicate h]
  · exact h

/-- Each target that has a member takes it by a line of its own inside the braces. The member is read
by its place in the temporary, and converted to the type of the target. -/
theorem forall₂_of_memberLines {index : Nat} {targets : List (String × Ty)} {members : List Ty}
    (h : (memberLines p index targets members).outcome = .ok lines) :
    List.Forall₂ (fun entry line => ∃ (index : Nat) (text : String),
        (Typed.converted { text := "std::get<" ++ toString index ++ ">(" ++ Target.temporary ++ ")"
                           type := entry.2 } entry.1.2 p).outcome = .ok text ∧
          line = ⟨1, entry.1.1 ++ " = " ++ text ++ ";"⟩) (targets.zip members) lines := by
  induction targets generalizing index members lines with
  | nil =>
    cases h
    exact .nil
  | cons target targets ih =>
    cases members with
    | nil =>
      cases h
      exact .nil
    | cons member members =>
      simp only [memberLines, Checked.outcome_bind_eq_ok_iff] at h
      obtain ⟨text, htext, others, hothers, heq⟩ := h
      cases heq
      exact .cons ⟨index, text, htext, rfl⟩ (ih hothers)

variable {d : Declaration} {type : Option Ty} {plan : Declaration.Plan}

/-- The initializers are typed one by one. -/
theorem Declaration.eq_of_initialValues {es : List Expr} {values : List (Expr × Typed)}
    (h : (initialValues scopes type es).outcome = .ok values) :
    values.map Prod.fst = es ∧
      ∀ value ∈ values, (value.1.initializer scopes type).outcome = .ok value.2 := by
  induction es generalizing values with
  | nil =>
    cases h
    simp
  | cons first es ih =>
    simp only [initialValues, Checked.outcome_bind_eq_ok_iff] at h
    obtain ⟨value, hvalue, others, hothers, heq⟩ := h
    cases heq
    obtain ⟨hexprs, hothers⟩ := ih hothers
    rw [List.forall_mem_cons]
    exact ⟨by rw [List.map_cons, hexprs], hvalue, hothers⟩

/-- Each name is paired with one of the initializers and with what that is typed as, also where all
names share a single one. -/
theorem Declaration.initializer_of_entry {es : List Expr} {values : List (Expr × Typed)}
    {names : List Token} {count : Nat} (h : (initialValues scopes type es).outcome = .ok values) :
    ∀ entry ∈ names.zip (spread count values), entry.1 ∈ names ∧ entry.2.1 ∈ es ∧
      (entry.2.1.initializer scopes type).outcome = .ok entry.2.2 := by
  obtain ⟨rfl, hvalues⟩ := eq_of_initialValues h
  intro entry hentry
  obtain ⟨hname, hvalue⟩ := List.of_mem_zip hentry
  have hmem := mem_of_mem_spread hvalue
  exact ⟨hname, List.mem_map_of_mem hmem, hvalues _ hmem⟩

/-- A name takes the type that is declared, or else that of its value, which is converted to it. -/
theorem Declaration.eq_of_planName {isConstant : Bool} {name : Token} {e : Expr} {value : Typed}
    {line : Line} {binding : Binding}
    (h : (planName isConstant type name e value).outcome = .ok (line, binding)) :
    ∃ own text, type.elim ((inferredType value name.lexeme e.position).outcome = .ok own) (· = own) ∧
      (value.converted own e.position).outcome = .ok text ∧
      line = (if isConstant then .flat ("const " ++
            (own.target ++ " " ++ Target.name name.lexeme ++ " = " ++ text ++ ";"))
          else if value.isNull then defaultLine own name
          else .flat (own.target ++ " " ++ Target.name name.lexeme ++ " = " ++ text ++ ";")) ∧
      binding = ⟨name, own, if isConstant then value.constant.bind (·.convert own) else none⟩ := by
  have hcommon : ∃ own, type.elim ((inferredType value name.lexeme e.position).outcome = .ok own)
      (· = own) ∧ ∃ text, (value.converted own e.position).outcome = .ok text ∧
        (line, binding) = (if isConstant then .flat ("const " ++
            (own.target ++ " " ++ Target.name name.lexeme ++ " = " ++ text ++ ";"))
          else if value.isNull then defaultLine own name
          else .flat (own.target ++ " " ++ Target.name name.lexeme ++ " = " ++ text ++ ";"),
        ⟨name, own, if isConstant then value.constant.bind (·.convert own) else none⟩) := by
    -- With or without a declared type, the rest is the same.
    cases type <;> simp only [planName, Checked.outcome_bind_eq_ok_iff] at h <;>
      obtain ⟨own, hown, text, htext, h⟩ := h
    all_goals
      refine ⟨own, by first | exact hown | exact Except.ok.inj hown, text, htext, ?_⟩
      split at h
      · rename_i hconstant
        split at h
        · simp at h
        · rename_i folded hfolded
          cases h
          simp [hconstant, hfolded]
      · rename_i hconstant
        split at h
        · rename_i hnull
          cases h
          simp [hconstant, hnull]
        · rename_i hnull
          cases h
          simp [hconstant, hnull]
  obtain ⟨own, hown, text, htext, heq⟩ := hcommon
  cases heq
  exact ⟨own, text, hown, htext, rfl, rfl⟩

/-- The names of a plan come from its entries, one by one. -/
theorem Declaration.forall₂_of_planNames {isConstant : Bool}
    {entries : List (Token × Expr × Typed)}
    (h : (planNames isConstant type entries).outcome = .ok plan) :
    ∃ planned : List (Line × Binding), plan = ⟨planned.map Prod.fst, planned.map Prod.snd⟩ ∧
      List.Forall₂ (fun entry item =>
        (planName isConstant type entry.1 entry.2.1 entry.2.2).outcome = .ok item)
        entries planned := by
  induction entries generalizing plan with
  | nil =>
    cases h
    exact ⟨[], rfl, .nil⟩
  | cons first entries ih =>
    simp only [planNames, Checked.outcome_bind_eq_ok_iff] at h
    obtain ⟨item, hitem, others, hothers, heq⟩ := h
    cases heq
    obtain ⟨planned, rfl, hplanned⟩ := ih hothers
    exact ⟨item :: planned, rfl, .cons hitem hplanned⟩

/-- The lines of a plan with initial values come from its entries, one by one. -/
theorem Declaration.forall₂_lines_of_planNames {isConstant : Bool}
    {entries : List (Token × Expr × Typed)}
    (h : (planNames isConstant type entries).outcome = .ok plan) :
    List.Forall₂ (fun entry line => ∃ binding,
      (planName isConstant type entry.1 entry.2.1 entry.2.2).outcome = .ok (line, binding))
      entries plan.lines := by
  obtain ⟨planned, rfl, hplanned⟩ := forall₂_of_planNames h
  exact List.forall₂_map_right_iff.2 (hplanned.imp fun _ item hitem => ⟨item.2, hitem⟩)

/-- Every name of a plan comes from one of its entries. -/
theorem Declaration.exists_of_mem_planNames {isConstant : Bool}
    {entries : List (Token × Expr × Typed)}
    (h : (planNames isConstant type entries).outcome = .ok plan) :
    ∀ b ∈ plan.bindings, ∃ name value, (name, value) ∈ entries ∧
      ∃ line, (planName isConstant type name value.1 value.2).outcome = .ok (line, b) := by
  obtain ⟨planned, rfl, hplanned⟩ := forall₂_of_planNames h
  intro b hb
  obtain ⟨item, hitem, rfl⟩ := List.mem_map.1 hb
  obtain ⟨entry, hentry, hline⟩ := exists_left_of_mem hplanned item hitem
  exact ⟨entry.1, entry.2, hentry, item.1, hline⟩

/-- Names and initializers that go together: as many of the one as of the other, or a single
initializer for all. -/
theorem Declaration.planInitialized_eq_ok {first : Expr}
    (h : (d.planInitialized scopes type first).outcome = .ok plan) :
    (d.initializers.length = 1 ∨ d.initializers.length = d.names.length) ∧
      ∃ values, (initialValues scopes type d.initializers).outcome = .ok values ∧
        (planNames d.isConstant type (d.names.zip (spread d.names.length values))).outcome =
          .ok plan := by
  simp only [planInitialized] at h
  split at h
  · simp at h
  · rename_i hcount
    simp only [Checked.outcome_bind_eq_ok_iff] at h
    refine ⟨?_, h⟩
    by_contra hnot
    push Not at hnot
    simp [hnot] at hcount

/-- A plan by default values has a line and a binding for each name. It needs a declared type, which
all names take. -/
theorem Declaration.eq_of_planDefault (h : (d.planDefault type).outcome = .ok plan) :
    ∃ own, type = some own ∧ plan =
      { lines := d.names.map (defaultLine own)
        bindings := d.names.map fun name => ⟨name, own, none⟩ } := by
  unfold planDefault at h
  split at h
  · simp at h
  · split at h
    · simp at h
    · rename_i own
      cases h
      exact ⟨own, rfl, rfl⟩

/-- A plan that unpacks a call binds the names to its members, and has a default line for each name
in front of the block that fills them. -/
theorem Declaration.eq_of_planUnpacked {call : Typed} {members : List Ty} {position : Position}
    (h : (d.planUnpacked type call members position).outcome = .ok plan) :
    plan.bindings = (d.names.zip members).map
        (fun entry => (⟨entry.1, type.getD entry.2, none⟩ : Binding)) ∧
      ∃ block, (unpack call members
          (plan.bindings.map fun b => (Target.name b.name.lexeme, b.type)) position).outcome =
            .ok block ∧
        plan.lines = plan.bindings.map (fun b => defaultLine b.type b.name) ++ block := by
  unfold planUnpacked at h
  split at h
  · simp at h
  · simp only [Checked.outcome_bind_eq_ok_iff] at h
    obtain ⟨block, hblock, heq⟩ := h
    cases heq
    exact ⟨rfl, block, hblock, rfl⟩

/-- A call that is unpacked is bound to names of the declaration. Each takes the declared type, or
without one that of a member of the call, and no constant. -/
theorem Declaration.exists_of_mem_planUnpacked {call : Typed} {members : List Ty}
    {position : Position} (h : (d.planUnpacked type call members position).outcome = .ok plan) :
    ∀ b ∈ plan.bindings, ∃ name ∈ d.names, ∃ member ∈ members,
      b = ⟨name, type.getD member, none⟩ := by
  obtain ⟨hbindings, -⟩ := eq_of_planUnpacked h
  rw [hbindings]
  intro b hb
  obtain ⟨⟨name, member⟩, hmem, rfl⟩ := List.mem_map.1 hb
  exact ⟨name, (List.of_mem_zip hmem).1, member, (List.of_mem_zip hmem).2, rfl⟩

/-- How a declaration comes to its plan, its type being resolved first: without values by default
ones, with a call that is unpacked, or with one initial value or as many as names. -/
theorem Declaration.plan_cases (h : (d.plan scopes).outcome = .ok plan) :
    ∃ type, d.type.elim (type = none) (fun t =>
        ∃ resolved, (t.resolveType scopes).outcome = .ok resolved ∧ type = some resolved) ∧
      ((d.initializers = [] ∧ (d.planDefault type).outcome = .ok plan) ∨
        (∃ call members position,
          (unpackable? scopes d.names.length d.initializers).outcome = .ok (some (call, members)) ∧
            (d.planUnpacked type call members position).outcome = .ok plan) ∨
        ∃ first, (unpackable? scopes d.names.length d.initializers).outcome = .ok none ∧
          (d.planInitialized scopes type first).outcome = .ok plan) := by
  unfold Declaration.plan at h
  cases htype : d.type <;> simp only [htype, Checked.outcome_bind_eq_ok_iff] at h
  on_goal 1 => obtain ⟨type, hnone, hplan⟩ := h
  on_goal 2 => obtain ⟨resolved, hresolved, type, hsome, hplan⟩ := h
  on_goal 1 => refine ⟨type, (Except.ok.inj hnone).symm, ?_⟩
  on_goal 2 => refine ⟨type, ⟨resolved, hresolved, (Except.ok.inj hsome).symm⟩, ?_⟩
  -- With or without a type, the rest is the same.
  all_goals
    split at hplan
    · rename_i hnil
      exact .inl ⟨hnil, hplan⟩
    · rename_i first others hcons
      simp only [Checked.outcome_bind_eq_ok_iff] at hplan
      obtain ⟨unpacked, hunpacked, hplan⟩ := hplan
      split at hplan
      · exact .inr (.inl ⟨_, _, _, hunpacked, hplan⟩)
      · exact .inr (.inr ⟨_, hunpacked, hplan⟩)

variable {a : Assignment} {places : List Typed} {op : Arithmetic} {symbol : String}

/-- The targets of an assignment are typed one by one, as places that may be written. -/
theorem Assignment.forall₂_of_places {targets : List Expr}
    (h : (Assignment.places scopes targets).outcome = .ok places) :
    List.Forall₂ (fun e place => (e.value scopes).outcome = .ok place ∧
      place.checkModifiable e.position = .ok ()) targets places := by
  induction targets generalizing places with
  | nil =>
    cases h
    exact .nil
  | cons e targets ih =>
    simp only [Assignment.places, Checked.outcome_bind_eq_ok_iff] at h
    obtain ⟨place, hplace, h⟩ := h
    split at h
    · simp at h
    · simp only [Checked.outcome_bind_eq_ok_iff] at h
      obtain ⟨_, hmodifiable, others, hothers, heq⟩ := h
      cases heq
      exact .cons ⟨hplace, hmodifiable⟩ (ih hothers)

/-- A pair is made of a place and a value of the assignment. -/
theorem Assignment.mem_of_mem_pairs {pair : Typed × Expr} (h : pair ∈ a.pairs places) :
    pair.1 ∈ places ∧ pair.2 ∈ a.values :=
  ⟨(List.of_mem_zip h).1, mem_of_mem_spread (List.of_mem_zip h).2⟩

/-- Two places of one type are swapped by one line, and the values are the names of the targets the
other way around. -/
theorem Assignment.eq_of_swap {targets values : List Expr} {line : Line}
    (h : (swap? targets values places).outcome = .ok (some line)) :
    (∃ first second, places = [first, second] ∧ first.type = second.type ∧
        line = .flat ("std::swap(" ++ first.text ++ ", " ++ second.text ++ ");")) ∧
      ∃ e e' v v' x y, targets = [e, e'] ∧ values = [v, v'] ∧
        e.name? = some x ∧ e'.name? = some y ∧ v.name? = some y ∧ v'.name? = some x := by
  unfold swap? at h
  split at h
  · rename_i e e' v v' first second
    split at h
    · rename_i x y x' y' he he' hv hv'
      split at h
      · rename_i hswap
        simp only [Bool.and_eq_true, decide_eq_true_eq] at hswap
        obtain ⟨⟨-, rfl⟩, rfl⟩ := hswap
        split at h
        · rename_i htype
          cases h
          exact ⟨⟨first, second, rfl, htype, rfl⟩, e, e', v, v', _, _, rfl, rfl, he, he', hv, hv'⟩
        · simp at h
      · cases h
    · cases h
  · cases h

/-- A compound assignment is written with its own sign where strings are added, and else in the form
that its operator asks for. -/
theorem Assignment.eq_of_compoundLine {place value : Typed} {line : Line}
    (h : (compoundLine op symbol place value p).outcome = .ok line) :
    (op = .add ∧ line = .flat (place.text ++ " += " ++ value.text ++ ";")) ∨
      line = .flat (compoundText op symbol place value) := by
  unfold compoundLine at h
  split at h
  · rename_i hadd
    simp only [Bool.and_eq_true, decide_eq_true_eq] at hadd
    cases h
    exact .inl ⟨hadd.1.1, rfl⟩
  · split at h
    · simp at h
    · split at h
      · simp at h
      · simp only [Checked.outcome_bind_eq_ok_iff] at h
        obtain ⟨_, -, heq⟩ := h
        cases heq
        exact .inr rfl

/-- Several compound assignments are a line each, for which the value is typed. -/
theorem Assignment.forall₂_of_compoundLines {pairs : List (Typed × Expr)}
    (h : (compoundLines scopes op symbol pairs).outcome = .ok lines) :
    List.Forall₂ (fun pair line => ∃ value, (pair.2.value scopes).outcome = .ok value ∧
      (compoundLine op symbol pair.1 value pair.2.position).outcome = .ok line) pairs lines := by
  induction pairs generalizing lines with
  | nil =>
    cases h
    exact .nil
  | cons pair pairs ih =>
    simp only [compoundLines, Checked.outcome_bind_eq_ok_iff] at h
    obtain ⟨value, hvalue, line, hline, others, hothers, heq⟩ := h
    cases heq
    exact .cons ⟨value, hvalue, hline⟩ (ih hothers)

/-- Several plain assignments are a line each, with the value converted to the type of its place. -/
theorem Assignment.forall₂_of_plainLines {pairs : List (Typed × Expr)}
    (h : (plainLines scopes pairs).outcome = .ok lines) :
    List.Forall₂ (fun pair line => ∃ value text,
      (pair.2.initializer scopes (some pair.1.type)).outcome = .ok value ∧
        (value.converted pair.1.type pair.2.position).outcome = .ok text ∧
        line = .flat (pair.1.text ++ " = " ++ text ++ ";")) pairs lines := by
  induction pairs generalizing lines with
  | nil =>
    cases h
    exact .nil
  | cons pair pairs ih =>
    simp only [plainLines, Checked.outcome_bind_eq_ok_iff] at h
    obtain ⟨value, hvalue, text, htext, others, hothers, heq⟩ := h
    cases heq
    exact .cons ⟨value, text, hvalue, htext, rfl⟩ (ih hothers)

/-- How a plain assignment comes to its lines: by a swap, by a call that is unpacked, or by one value
for each place. -/
theorem Assignment.assignLines_cases (h : (a.assignLines scopes places).outcome = .ok lines) :
    (∃ line, (swap? a.targets a.values places).outcome = .ok (some line) ∧ lines = [line]) ∨
      (∃ call members position,
        (unpackable? scopes places.length a.values).outcome = .ok (some (call, members)) ∧
          (unpack call members (places.map fun p => (p.text, p.type)) position).outcome =
            .ok lines) ∨
      (unpackable? scopes places.length a.values).outcome = .ok none ∧
        (checkCount places.length a.values).outcome = .ok () ∧
        (plainLines scopes (a.pairs places)).outcome = .ok lines := by
  simp only [assignLines, Checked.outcome_bind_eq_ok_iff] at h
  obtain ⟨swapped, hswapped, h⟩ := h
  split at h
  · cases h
    exact .inl ⟨_, hswapped, rfl⟩
  · simp only [Checked.outcome_bind_eq_ok_iff] at h
    obtain ⟨unpacked, hunpacked, h⟩ := h
    split at h
    · exact .inr (.inl ⟨_, _, _, hunpacked, h⟩)
    · rename_i unpacked _ _ hnone
      simp only [Checked.outcome_bind_eq_ok_iff] at h
      obtain ⟨_, hcount, h⟩ := h
      -- What is unpacked has an expression, so that there is nothing to unpack here.
      have hunpacked : (unpackable? scopes places.length a.values).outcome = .ok none := by
        cases unpacked with
        | none => exact hunpacked
        | some unpacked =>
          obtain ⟨e, hvalues, -⟩ := eq_of_unpackable hunpacked
          exact absurd hvalues (hnone unpacked.1 unpacked.2 e [] rfl)
      exact .inr (.inr ⟨hunpacked, hcount, h⟩)

/-- How an assignment comes to its lines, its targets being typed first: by its operator, or as a
plain one. -/
theorem Assignment.lines_cases (h : (a.lines scopes).outcome = .ok lines) :
    ∃ places, (Assignment.places scopes a.targets).outcome = .ok places ∧
      ((∃ op, a.operator.kind = .compound op ∧
          (checkCount places.length a.values).outcome = .ok () ∧
          (compoundLines scopes op a.operator.lexeme (a.pairs places)).outcome = .ok lines) ∨
        (∀ op, a.operator.kind ≠ .compound op) ∧
          (a.assignLines scopes places).outcome = .ok lines) := by
  simp only [Assignment.lines, Checked.outcome_bind_eq_ok_iff] at h
  obtain ⟨places, hplaces, h⟩ := h
  refine ⟨places, hplaces, ?_⟩
  split at h
  · rename_i op hop
    simp only [Checked.outcome_bind_eq_ok_iff] at h
    obtain ⟨_, hcount, hlines⟩ := h
    exact .inl ⟨op, hop, hcount, hlines⟩
  · rename_i hplain
    exact .inr ⟨hplain, h⟩

/-- What is evaluated for its effect is typed and written as a line each, and is a step or a call
that returns nothing. -/
theorem forall₂_of_operationLines {es : List Expr}
    (h : (operationLines scopes es).outcome = .ok lines) :
    List.Forall₂ (fun e line => ∃ typed, (e.value scopes).outcome = .ok typed ∧
      (typed.isStep || typed.isCall && typed.type.isVoid) = true ∧
        line = .flat (typed.text ++ ";")) es lines := by
  induction es generalizing lines with
  | nil =>
    cases h
    exact .nil
  | cons e es ih =>
    simp only [operationLines, Checked.outcome_bind_eq_ok_iff] at h
    obtain ⟨typed, htyped, h⟩ := h
    split at h
    · rename_i heffect
      simp only [Checked.outcome_bind_eq_ok_iff] at h
      obtain ⟨others, hothers, heq⟩ := h
      cases heq
      exact .cons ⟨typed, htyped, heffect, rfl⟩ (ih hothers)
    · simp at h

end Sprout
