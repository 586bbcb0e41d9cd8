import Mathlib.Data.List.Forall2
import Mathlib.Data.List.ReduceOption
import Sprout.Proofs.Outcome

namespace Sprout.Expr

/-- The expressions directly inside an expression. -/
def children : Expr → List Expr
  | binary _ left right _ => [left, right]
  | unary _ operand _ | stepBefore _ operand _ | stepAfter _ operand _ => [operand]
  | call _ args _ => args
  | index receiver offset => [receiver, offset]
  | field receiver _ _ => [receiver]
  | method receiver _ args _ => receiver :: args
  | typeName _ dimensions _ => dimensions.reduceOption
  | convert _ dimensions args _ => args ++ dimensions.reduceOption
  | array elements _ => elements
  | ident .. | number .. | literal .. | null _ => []

/-- The size of a dimension is smaller than all of them. -/
theorem sizeOf_lt_of_mem_reduceOption {e : Expr} {sizes : List (Option Expr)}
    (h : e ∈ sizes.reduceOption) : sizeOf e < sizeOf sizes := by
  rw [List.reduceOption_mem_iff] at h
  have hmem := List.sizeOf_lt_of_mem h
  rw [Option.some.sizeOf_spec] at hmem
  omega

/-- What stands in an expression is smaller than it. This is what the induction on expressions by
their children rests on. -/
theorem sizeOf_lt_of_child {part whole : Expr} (h : part ∈ whole.children) :
    sizeOf part < sizeOf whole := by
  cases whole with
  | binary | index =>
    simp only [children, List.mem_cons, List.not_mem_nil, or_false] at h
    rcases h with rfl | rfl <;> simp <;> omega
  | unary | stepBefore | stepAfter | field =>
    simp only [children, List.mem_singleton] at h
    subst h
    simp
    omega
  | call _ args _ | array args _ =>
    have hmem : sizeOf part < sizeOf args := List.sizeOf_lt_of_mem h
    simp
    omega
  | method =>
    rcases List.mem_cons.1 h with rfl | hargs
    · simp
      omega
    · have hmem := List.sizeOf_lt_of_mem hargs
      simp
      omega
  | typeName _ sizes _ =>
    have hmem : sizeOf part < sizeOf sizes := sizeOf_lt_of_mem_reduceOption h
    simp
    omega
  | convert =>
    rcases List.mem_append.1 h with hargs | hsizes
    · have hmem := List.sizeOf_lt_of_mem hargs
      simp
      omega
    · have hmem := sizeOf_lt_of_mem_reduceOption hsizes
      simp
      omega
  | ident | number | literal | null => cases h

/-- What holds of an expression whenever it holds of all its parts holds of every expression. -/
@[elab_as_elim] theorem inductionOnChildren {P : Expr → Prop} (e : Expr)
    (step : ∀ e, (∀ part ∈ e.children, P part) → P e) : P e := by
  induction hsize : sizeOf e using Nat.strongRecOn generalizing e with
  | ind size ih =>
    refine step e fun part hpart => ih (sizeOf part) ?_ part rfl
    rw [← hsize]
    exact sizeOf_lt_of_child hpart

/-- `Within part whole`: the expression `part` stands somewhere in `whole`, or is all of it. -/
inductive Within (part : Expr) : Expr → Prop
  | self : Within part part
  | child {e whole} (hchild : e ∈ whole.children) (h : Within part e) : Within part whole

/-- Whether an expression looks a name up: the name stands somewhere in it as a variable. -/
def Reads (name : String) (e : Expr) : Prop :=
  ∃ position, Within (.ident name position) e

section Mentions

variable {name : String} {e whole : Expr}

/-- What one of several expressions mentions, they mention. -/
theorem mentionsAny_of_mem {es : List Expr} (hmem : e ∈ es) (h : e.mentions name = true) :
    mentionsAny name es = true := by
  induction es with
  | nil => cases hmem
  | cons head es ih =>
    rw [mentionsAny, Bool.or_eq_true]
    cases hmem with
    | head => exact .inl h
    | tail _ hmem => exact .inr (ih hmem)

/-- What the size of a dimension mentions, the dimensions mention. -/
theorem mentionsDimension_of_mem {sizes : List (Option Expr)} (hmem : e ∈ sizes.reduceOption)
    (h : e.mentions name = true) : mentionsDimension name sizes = true := by
  induction sizes with
  | nil => cases hmem
  | cons size sizes ih =>
    cases size with
    | none => exact ih hmem
    | some size =>
      rw [mentionsDimension, Bool.or_eq_true]
      rw [List.reduceOption_cons_of_some] at hmem
      cases hmem with
      | head => exact .inl h
      | tail _ hmem => exact .inr (ih hmem)

/-- What a part mentions, the whole mentions, whichever form the whole has. -/
theorem mentions_of_child (hchild : e ∈ whole.children) (h : e.mentions name = true) :
    whole.mentions name = true := by
  cases whole with
  | binary | index =>
    simp only [children, List.mem_cons, List.not_mem_nil, or_false] at hchild
    rcases hchild with rfl | rfl <;> simp [mentions, h]
  | unary | stepBefore | stepAfter | field =>
    simp only [children, List.mem_singleton] at hchild
    simp [mentions, ← hchild, h]
  | call | array => exact mentionsAny_of_mem hchild h
  | method =>
    rcases List.mem_cons.1 hchild with rfl | hargs
    · simp [mentions, h]
    · simp [mentions, mentionsAny_of_mem hargs h]
  | typeName => exact mentionsDimension_of_mem hchild h
  | convert =>
    rcases List.mem_append.1 hchild with hargs | hsizes
    · simp [mentions, mentionsAny_of_mem hargs h]
    · simp [mentions, mentionsDimension_of_mem hsizes h]
  | ident | number | literal | null => cases hchild

/-- Every name that is looked up is mentioned. -/
theorem Reads.mentions (h : Reads name e) : e.mentions name = true := by
  obtain ⟨position, hwithin⟩ := h
  induction hwithin with
  | self => simp [Expr.mentions]
  | child hchild _ ih => exact mentions_of_child hchild ih

end Mentions

/-- Whether an expression can be typed, as a value or behind an equal sign. -/
def Accepted (scopes : Scopes) (e : Expr) : Prop :=
  ∃ target typed, (e.initializer scopes target).outcome = .ok typed

/-- Whether an expression can be typed as a value and written to. -/
def Writable (scopes : Scopes) (e : Expr) : Prop :=
  ∃ typed position, (e.value scopes).outcome = .ok typed ∧ typed.checkModifiable position = .ok ()

section Accepted

variable {scopes : Scopes} {e part : Expr} {typed : Typed}

/-- Behind an equal sign, what can be a value is typed as one. -/
theorem initializer_of_value (h : (e.value scopes).outcome = .ok typed) (target : Option Ty) :
    e.initializer scopes target = e.value scopes := by
  cases e with
  | null | array => simp [value] at h
  | _ => rfl

/-- An expression that is typed is accepted. -/
theorem Accepted.of_value (h : (e.value scopes).outcome = .ok typed) : Accepted scopes e :=
  ⟨none, typed, by rw [initializer_of_value h]; exact h⟩

/-- A place that can be written is accepted. -/
theorem Writable.accepted (h : Writable scopes e) : Accepted scopes e := by
  obtain ⟨typed, _, htyped, -⟩ := h
  exact .of_value htyped

/-- Everything but `null` and array literals is typed as a value. -/
theorem Accepted.value (h : Accepted scopes e) (hnull : ∀ p, e ≠ .null p)
    (harray : ∀ es p, e ≠ .array es p) : ∃ typed, (e.value scopes).outcome = .ok typed := by
  obtain ⟨target, typed, htyped⟩ := h
  refine ⟨typed, ?_⟩
  cases e with
  | null p => exact absurd rfl (hnull p)
  | array es p => exact absurd rfl (harray es p)
  | _ => exact htyped

/-- Several values are typed one by one. -/
theorem forall₂_of_values {es : List Expr} {results : List Typed}
    (h : (values scopes es).outcome = .ok results) :
    List.Forall₂ (fun e typed => (e.value scopes).outcome = .ok typed) es results := by
  induction es generalizing results with
  | nil =>
    cases h
    exact .nil
  | cons first es ih =>
    simp only [values, Checked.outcome_bind_eq_ok_iff] at h
    obtain ⟨head, hhead, tail, htail, heq⟩ := h
    cases heq
    exact .cons hhead (ih htail)

/-- What joins each of several expressions to its value joins them to all the values. -/
theorem forall₂_values {R : Expr → Typed → Prop} {es : List Expr} {results : List Typed}
    (hvalue : ∀ e ∈ es, ∀ typed, (e.value scopes).outcome = .ok typed → R e typed)
    (h : (values scopes es).outcome = .ok results) : List.Forall₂ R es results := by
  have hboth := (List.forall₂_and_left _ _).2 ⟨hvalue, forall₂_of_values h⟩
  exact hboth.imp fun e typed ⟨hjoins, htyped⟩ => hjoins typed htyped

/-- What holds of the value of each expression holds of all the values. -/
theorem forall_values {P : Typed → Prop} {es : List Expr} {results : List Typed}
    (hvalue : ∀ e ∈ es, ∀ typed, (e.value scopes).outcome = .ok typed → P typed)
    (h : (values scopes es).outcome = .ok results) : ∀ result ∈ results, P result := by
  have hall := forall₂_values (R := fun _ => P) hvalue h
  clear hvalue h
  induction hall with
  | nil => simp
  | cons hfirst _ ih =>
    rw [List.forall_mem_cons]
    exact ⟨hfirst, ih⟩

/-- The last step of typing an expression as a value: the values of its parts, and what joins
them. -/
inductive ValueStep (scopes : Scopes) (typed : Typed) : Expr → Prop
  | number {n position} (hnumber : (Typed.ofNumber n position).outcome = .ok typed) :
      ValueStep scopes typed (.number n position)
  | literal {l position} (hliteral : (Typed.ofLiteral l position).outcome = .ok typed) :
      ValueStep scopes typed (.literal l position)
  | ident {name position} (hname : (Typed.ofName scopes name position).outcome = .ok typed) :
      ValueStep scopes typed (.ident name position)
  | call {name args position results} (hargs : (values scopes args).outcome = .ok results)
      (hcall : (Typed.callFunction name results position).outcome = .ok typed) :
      ValueStep scopes typed (.call name args position)
  | index {receiver offset whole selected} (hwhole : (receiver.value scopes).outcome = .ok whole)
      (hselected : (offset.value scopes).outcome = .ok selected)
      (helement : (Typed.elementAt whole selected offset.position).outcome = .ok typed) :
      ValueStep scopes typed (.index receiver offset)
  | method {receiver name args position whole results}
      (hwhole : (receiver.value scopes).outcome = .ok whole)
      (hargs : (values scopes args).outcome = .ok results)
      (hcall : (Typed.callMethod whole name results position).outcome = .ok typed) :
      ValueStep scopes typed (.method receiver name args position)
  | convert {target args position results} (hargs : (values scopes args).outcome = .ok results)
      (hconvert : (Typed.convert target results position).outcome = .ok typed) :
      ValueStep scopes typed (.convert target [] args position)
  | unary {op operand position inner} (hinner : (operand.value scopes).outcome = .ok inner)
      (hunary : (Typed.applyUnary op inner position).outcome = .ok typed) :
      ValueStep scopes typed (.unary op operand position)
  | stepBefore {op operand position inner} (hinner : (operand.value scopes).outcome = .ok inner)
      (hstep : (Typed.applyStep op false inner position).outcome = .ok typed) :
      ValueStep scopes typed (.stepBefore op operand position)
  | stepAfter {op operand position inner} (hinner : (operand.value scopes).outcome = .ok inner)
      (hstep : (Typed.applyStep op true inner position).outcome = .ok typed) :
      ValueStep scopes typed (.stepAfter op operand position)
  | binary {op left right position first second}
      (hfirst : (left.value scopes).outcome = .ok first)
      (hsecond : (right.value scopes).outcome = .ok second)
      (hbinary : (Typed.applyBinary op first second position).outcome = .ok typed) :
      ValueStep scopes typed (.binary op left right position)

/-- Typing as a value ends with such a step. No value has `null`, an array literal, a type name, a
field or the conversion to an array type. -/
theorem ValueStep.of_value (h : (e.value scopes).outcome = .ok typed) :
    ValueStep scopes typed e := by
  cases e with
  | number => exact .number h
  | literal => exact .literal h
  | ident => exact .ident h
  | null | array | typeName => simp [value] at h
  | field =>
    simp only [value, Checked.outcome_bind_eq_ok_iff] at h
    obtain ⟨_, -, hraise⟩ := h
    simp at hraise
  | call =>
    simp only [value, Checked.outcome_bind_eq_ok_iff] at h
    obtain ⟨_, hargs, hcall⟩ := h
    exact .call hargs hcall
  | index =>
    simp only [value, Checked.outcome_bind_eq_ok_iff] at h
    obtain ⟨_, hwhole, _, hselected, helement⟩ := h
    exact .index hwhole hselected helement
  | method =>
    simp only [value, Checked.outcome_bind_eq_ok_iff] at h
    obtain ⟨_, hwhole, _, hargs, hcall⟩ := h
    exact .method hwhole hargs hcall
  | convert target sizes args position =>
    cases sizes with
    | cons => simp [value] at h
    | nil =>
      simp only [value, Checked.outcome_bind_eq_ok_iff] at h
      obtain ⟨_, hargs, hconvert⟩ := h
      exact .convert hargs hconvert
  | unary =>
    simp only [value, Checked.outcome_bind_eq_ok_iff] at h
    obtain ⟨_, hinner, hunary⟩ := h
    exact .unary hinner hunary
  | stepBefore =>
    simp only [value, Checked.outcome_bind_eq_ok_iff] at h
    obtain ⟨_, hinner, hstep⟩ := h
    exact .stepBefore hinner hstep
  | stepAfter =>
    simp only [value, Checked.outcome_bind_eq_ok_iff] at h
    obtain ⟨_, hinner, hstep⟩ := h
    exact .stepAfter hinner hstep
  | binary =>
    simp only [value, Checked.outcome_bind_eq_ok_iff] at h
    obtain ⟨_, hfirst, _, hsecond, hbinary⟩ := h
    exact .binary hfirst hsecond hbinary

/-- Expressions that are typed are accepted. -/
theorem accepted_of_values {es : List Expr} {results : List Typed}
    (h : (values scopes es).outcome = .ok results) : ∀ e ∈ es, Accepted scopes e := by
  have hall := forall₂_of_values h
  clear h
  induction hall with
  | nil => simp
  | cons hfirst _ ih =>
    rw [List.forall_mem_cons]
    exact ⟨.of_value hfirst, ih⟩

/-- Elements that have texts are accepted. -/
theorem accepted_of_elementTexts {element : Ty} {es : List Expr} {texts : List String}
    (h : (elementTexts scopes element es).outcome = .ok texts) : ∀ e ∈ es, Accepted scopes e := by
  induction es generalizing texts with
  | nil => intro e he; cases he
  | cons head es ih =>
    simp only [elementTexts, Checked.outcome_bind_eq_ok_iff] at h
    obtain ⟨first, hfirst, _, _, others, hothers, -⟩ := h
    intro e he
    cases he with
    | head => exact ⟨some element, first, hfirst⟩
    | tail _ he => exact ih hothers e he

/-- An array literal has the type that is asked for, or else that of its elements, which are written
between braces. -/
theorem eq_of_initializer_array {target : Option Ty} {elements : List Expr} {position : Position}
    (h : (initializer scopes target (.array elements position)).outcome = .ok typed) :
    ∃ element type texts,
      (target.elim ((elementType scopes none elements).outcome = .ok (some element) ∧
          type = .array element (some elements.length))
        fun asked => (arrayTarget asked elements.length position).outcome = .ok (element, type)) ∧
      (elementTexts scopes element elements).outcome = .ok texts ∧
      typed = { text := "\x7b" ++ ", ".intercalate texts ++ "\x7d", type } := by
  cases target with
  | some asked =>
    simp only [initializer, Checked.outcome_bind_eq_ok_iff] at h
    obtain ⟨⟨element, type⟩, harray, texts, htexts, heq⟩ := h
    cases heq
    exact ⟨element, type, texts, harray, htexts, rfl⟩
  | none =>
    simp only [initializer, Checked.outcome_bind_eq_ok_iff] at h
    obtain ⟨element, helement, h⟩ := h
    cases element with
    | none => simp at h
    | some element =>
      simp only [Checked.outcome_bind_eq_ok_iff] at h
      obtain ⟨_, hpair, texts, htexts, heq⟩ := h
      cases hpair
      cases heq
      exact ⟨element, _, texts, ⟨helement, rfl⟩, htexts, rfl⟩

/-- Typing a value types its parts as values in the same scopes: each form of expressions types all
of its children before anything else. -/
theorem accepted_child_of_value (h : (e.value scopes).outcome = .ok typed)
    (hchild : part ∈ e.children) : Accepted scopes part := by
  cases ValueStep.of_value h with
  | number | literal | ident => cases hchild
  | binary hfirst hsecond | index hfirst hsecond =>
    simp only [children, List.mem_cons, List.not_mem_nil, or_false] at hchild
    rcases hchild with rfl | rfl
    · exact .of_value hfirst
    · exact .of_value hsecond
  | unary hinner | stepBefore hinner | stepAfter hinner =>
    simp only [children, List.mem_singleton] at hchild
    exact .of_value (hchild ▸ hinner)
  | call hargs => exact accepted_of_values hargs part hchild
  | method hwhole hargs =>
    rcases List.mem_cons.1 hchild with rfl | hmem
    · exact .of_value hwhole
    · exact accepted_of_values hargs part hmem
  | convert hargs =>
    simp only [children, List.reduceOption_nil, List.append_nil] at hchild
    exact accepted_of_values hargs part hchild

/-- What stands directly inside an accepted expression is accepted. -/
theorem Accepted.child (h : Accepted scopes e) (hchild : part ∈ e.children) :
    Accepted scopes part := by
  cases e with
  | null => cases hchild
  | array es p =>
    obtain ⟨target, typed, htyped⟩ := h
    obtain ⟨_, _, _, -, htexts, -⟩ := eq_of_initializer_array htyped
    exact accepted_of_elementTexts htexts part hchild
  | _ =>
    obtain ⟨typed, htyped⟩ := h.value (by simp) (by simp)
    exact accepted_child_of_value htyped hchild

/-- Whatever stands in an accepted expression is accepted in the same scopes, because typing an
expression means typing all of its parts. -/
theorem Accepted.within (hwithin : Within part e) (h : Accepted scopes e) :
    Accepted scopes part := by
  induction hwithin with
  | self => exact h
  | child hchild _ ih => exact ih (h.child hchild)

/-- Every name that an accepted expression looks up is declared. -/
theorem Accepted.lookup {name : String} (h : Accepted scopes e) (hreads : Reads name e) :
    ∃ symbol, scopes.lookup name = some symbol := by
  obtain ⟨position, hwithin⟩ := hreads
  obtain ⟨typed, htyped⟩ := (h.within hwithin).value (by simp) (by simp)
  cases hlookup : scopes.lookup name with
  | none => simp [Expr.value, Typed.ofName, hlookup] at htyped
  | some symbol => exact ⟨symbol, rfl⟩

end Accepted

end Sprout.Expr
