import Mathlib.Data.List.Perm.Basic
import Sprout.Proofs.Typing.Parts
import Sprout.Proofs.Typing.Steps

namespace Sprout

namespace Primitive

/-- The numeric types, each in front of those that it gives way to. -/
def ascending : List Primitive :=
  [.i8, .u8, .i16, .u16, .i32, .u32, .i64, .u64, .usize, .f32, .f64]

/-- The place of a numeric type in the chain. The numeric types are joined to the later one of two
in it, and other types join only with themselves. -/
def rank (p : Primitive) : Nat :=
  ascending.idxOf p

/-- The chain holds all numeric types and no others. -/
theorem mem_ascending_iff {p : Primitive} : p ∈ ascending ↔ p.isNumeric = true := by
  cases p <;> decide

/-- No two numeric types stand at one place of the chain. -/
theorem eq_of_rank_eq {p q : Primitive} (hp : p.isNumeric = true) (h : p.rank = q.rank) : p = q :=
  (List.idxOf_inj (mem_ascending_iff.2 hp)).1 h

/-- Of two numeric types, the common one is that which stands later in the chain. -/
theorem common_eq (p q : Primitive) :
    common p q =
      if p.isNumeric && q.isNumeric then some (if p.rank ≤ q.rank then q else p) else none := by
  cases p <;> cases q <;> rfl

end Primitive

namespace Ty

/-- A value of the first type can be an element where the second is the type of all elements: it is
the same type, or both are numeric and the second stands no earlier in the chain. -/
inductive Yields : Ty → Ty → Prop
  | refl (t : Ty) : Yields t t
  | numeric {p q : Primitive} (hp : p.isNumeric = true) (hq : q.isNumeric = true)
      (h : p.rank ≤ q.rank) : Yields (.primitive p) (.primitive q)

/-- One of the types, to which all of them yield. -/
structure Greatest (types : List Ty) (t : Ty) : Prop where
  mem : t ∈ types
  yields : ∀ s ∈ types, s.Yields t

namespace Yields

variable {r s t : Ty}

/-- Yielding to a type passes on to what that type yields to. -/
theorem trans (h : r.Yields s) (h' : s.Yields t) : r.Yields t := by
  cases h with
  | refl => exact h'
  | numeric hp hq hle =>
    cases h' with
    | refl => exact .numeric hp hq hle
    | numeric _ hr hle' => exact .numeric hp hr (Nat.le_trans hle hle')

/-- Types that yield to each other are the same. -/
theorem antisymm (h : s.Yields t) (h' : t.Yields s) : s = t := by
  cases h with
  | refl => rfl
  | numeric hp hq hle =>
    cases h' with
    | refl => rfl
    | numeric _ _ hle' => rw [Primitive.eq_of_rank_eq hp (Nat.le_antisymm hle hle')]

/-- Numeric types yield one way or the other. -/
theorem total_of_isNumeric (hs : s.isNumeric = true) (ht : t.isNumeric = true) :
    s.Yields t ∨ t.Yields s := by
  cases s with
  | primitive p =>
    cases t with
    | primitive q => exact (Nat.le_total p.rank q.rank).imp (.numeric hs ht) (.numeric ht hs)
    | _ => cases ht
  | _ => cases hs

/-- A numeric type yields to numeric types only, and no other type yields to one. -/
theorem isNumeric_iff (h : s.Yields t) : s.isNumeric = true ↔ t.isNumeric = true := by
  cases h with
  | refl => rfl
  | numeric hp hq _ => exact iff_of_true hp hq

/-- Only numeric types yield to another type. -/
theorem eq_of_not_isNumeric (h : s.Yields t) (ht : t.isNumeric = false) : s = t := by
  cases h with
  | refl => rfl
  | numeric _ hq _ => exact absurd ht (by simp [isNumeric, hq])

/-- Types that yield to the same type yield one way or the other. -/
theorem total (h : r.Yields t) (h' : s.Yields t) : r.Yields s ∨ s.Yields r := by
  cases ht : t.isNumeric with
  | true => exact total_of_isNumeric (h.isNumeric_iff.2 ht) (h'.isNumeric_iff.2 ht)
  | false =>
    rw [h.eq_of_not_isNumeric ht, h'.eq_of_not_isNumeric ht]
    exact .inl (.refl t)

/-- What yields to a type can be stored in a place of it. -/
theorem assign_ne_incompatible (h : s.Yields t) : t.assign s ≠ .incompatible := by
  cases h with
  | refl => simp [assign_eq_exact_iff.2]
  | numeric hp hq _ =>
    unfold assign
    simp only [hp, hq, Bool.and_self, if_true]
    repeat' split
    all_goals simp

end Yields

namespace Greatest

variable {types types' : List Ty} {s t a b j : Ty}

/-- There is one greatest type at most. -/
theorem unique (hs : Greatest types s) (ht : Greatest types t) : s = t :=
  (ht.yields s hs.mem).antisymm (hs.yields t ht.mem)

/-- The greatest of some types does not depend on their order. -/
theorem perm (h : Greatest types t) (hperm : types.Perm types') : Greatest types' t :=
  ⟨hperm.mem_iff.1 h.mem, fun s hs => h.yields s (hperm.mem_iff.2 hs)⟩

@[simp] theorem singleton_iff : Greatest [s] t ↔ s = t := by
  constructor
  · intro h
    exact (List.mem_singleton.1 h.mem).symm
  · rintro rfl
    exact ⟨by simp, by simpa using Yields.refl s⟩

/-- Of two types the first is the greatest if the second yields to it. -/
theorem pair_left (h : b.Yields a) : Greatest [a, b] a :=
  ⟨by simp, by simpa using ⟨.refl a, h⟩⟩

/-- Of two types the second is the greatest if the first yields to it. -/
theorem pair_right (h : a.Yields b) : Greatest [a, b] b :=
  ⟨by simp, by simpa using ⟨h, .refl b⟩⟩

/-- The greatest of two types is one of them. -/
theorem mem_pair (h : Greatest [a, b] j) : j = a ∨ j = b := by
  simpa using h.mem

/-- The greater one of two different types is the common type of two numbers. Types that are no
numbers have a greater one only if they are equal. -/
theorem pair_iff :
    Greatest [a, b] j ↔ a = b ∧ j = a ∨
      a ≠ b ∧ ∃ p q common, a = .primitive p ∧ b = .primitive q ∧
        Primitive.common p q = some common ∧ j = .primitive common := by
  constructor
  · intro h
    by_cases hsame : a = b
    · exact .inl ⟨hsame, h.mem_pair.elim id (hsame ▸ ·)⟩
    · refine .inr ⟨hsame, ?_⟩
      rcases h.mem_pair with rfl | rfl
      · cases h.yields b (by simp) with
        | refl => exact absurd rfl hsame
        | @numeric q p hq hp hle =>
          have hlater : ¬ p.rank ≤ q.rank := fun hle' =>
            hsame (congrArg primitive (Primitive.eq_of_rank_eq hp (Nat.le_antisymm hle' hle)))
          exact ⟨p, q, p, rfl, rfl, by simp [Primitive.common_eq, hp, hq, hlater], rfl⟩
      · cases h.yields a (by simp) with
        | refl => exact absurd rfl hsame
        | @numeric p q hp hq hle =>
          exact ⟨p, q, q, rfl, rfl, by simp [Primitive.common_eq, hp, hq, hle], rfl⟩
  · rintro (⟨rfl, rfl⟩ | ⟨-, p, q, common, rfl, rfl, hcommon, rfl⟩)
    · exact pair_left (.refl j)
    · rw [Primitive.common_eq] at hcommon
      obtain ⟨hnumeric, heq⟩ := Option.ite_none_right_eq_some.1 hcommon
      obtain ⟨hp, hq⟩ := Bool.and_eq_true_iff.1 hnumeric
      cases heq
      split
      · exact pair_right (.numeric hp hq ‹_›)
      · exact pair_left (.numeric hq hp (by omega))

/-- The greatest type of a list can be found from the left: the greater one of the first two stands
for both in front of the others. -/
theorem cons_cons_iff :
    Greatest (a :: b :: types) t ↔ ∃ j, Greatest [a, b] j ∧ Greatest (j :: types) t := by
  constructor
  · rintro ⟨hmem, hyields⟩
    simp only [List.forall_mem_cons] at hyields
    obtain ⟨ha, hb, hothers⟩ := hyields
    -- The greater one of the first two takes the place of both.
    have hkept : ∀ j, Greatest [a, b] j → Greatest (j :: types) t := by
      intro j hj
      have hjt : j.Yields t := by
        rcases hj.mem_pair with rfl | rfl <;> assumption
      refine ⟨?_, by simpa using ⟨hjt, hothers⟩⟩
      rcases List.mem_cons.1 hmem with rfl | hmem
      · rw [(hj.yields t (by simp)).antisymm hjt]
        exact List.mem_cons_self
      · rcases List.mem_cons.1 hmem with rfl | hmem
        · rw [(hj.yields t (by simp)).antisymm hjt]
          exact List.mem_cons_self
        · exact List.mem_cons_of_mem j hmem
    rcases ha.total hb with hab | hba
    · exact ⟨b, pair_right hab, hkept b (pair_right hab)⟩
    · exact ⟨a, pair_left hba, hkept a (pair_left hba)⟩
  · rintro ⟨j, hj, hmem, hyields⟩
    rw [List.forall_mem_cons] at hyields
    have ha := (hj.yields a (by simp)).trans hyields.1
    have hb := (hj.yields b (by simp)).trans hyields.1
    refine ⟨?_, by simpa using ⟨ha, hb, hyields.2⟩⟩
    rcases List.mem_cons.1 hmem with rfl | hmem
    · rcases hj.mem_pair with rfl | rfl <;> simp
    · simp [hmem]

/-- There is a greatest type exactly if all are equal, or all are numeric. In the second case by
induction on the list, joining from the left along the chain. -/
theorem exists_iff (hne : types ≠ []) :
    (∃ t, Greatest types t) ↔
      (∀ s ∈ types, ∀ t ∈ types, s = t) ∨ ∀ t ∈ types, t.isNumeric = true := by
  constructor
  · rintro ⟨t, -, hyields⟩
    cases ht : t.isNumeric with
    | true => exact .inr fun s hs => (hyields s hs).isNumeric_iff.2 ht
    | false =>
      have heq : ∀ s ∈ types, s = t := fun s hs => (hyields s hs).eq_of_not_isNumeric ht
      exact .inl fun r hr s hs => (heq r hr).trans (heq s hs).symm
  · obtain ⟨a, types, rfl⟩ := List.exists_cons_of_ne_nil hne
    rintro (hsame | hnumeric)
    · refine ⟨a, List.mem_cons_self, fun s hs => ?_⟩
      rw [hsame s hs a List.mem_cons_self]
      exact .refl a
    · clear hne
      induction types generalizing a with
      | nil => exact ⟨a, singleton_iff.2 rfl⟩
      | cons b types ih =>
        simp only [List.forall_mem_cons] at hnumeric
        obtain ⟨ha, hb, hothers⟩ := hnumeric
        have hpair : ∃ j, Greatest [a, b] j := by
          rcases Yields.total_of_isNumeric ha hb with hab | hba
          · exact ⟨b, pair_right hab⟩
          · exact ⟨a, pair_left hba⟩
        obtain ⟨j, hj⟩ := hpair
        have hj' : j.isNumeric = true := (hj.yields a (by simp)).isNumeric_iff.1 ha
        obtain ⟨t, ht⟩ := ih j (by simpa using ⟨hj', hothers⟩)
        exact ⟨t, cons_cons_iff.2 ⟨j, hj, ht⟩⟩

end Greatest

end Ty

/-- What yields to a type is converted to it. -/
theorem Typed.exists_converted {typed : Typed} {target : Ty} (h : typed.type.Yields target)
    (position : Position) : ∃ text, (typed.converted target position).outcome = .ok text := by
  have hassign : ∃ fit, (typed.checkAssign target position).outcome = .ok fit := by
    have hallowed := h.assign_ne_incompatible
    unfold checkAssign
    split
    · exact ⟨_, rfl⟩
    · split
      · contradiction
      · exact ⟨.narrowing, by split <;> rfl⟩
      · exact ⟨_, rfl⟩
  obtain ⟨fit, hfit⟩ := hassign
  simp only [converted, Checked.outcome_bind_eq_ok_iff, hfit, Except.ok.injEq, exists_eq_left']
  split
  · exact ⟨_, rfl⟩
  · exact ⟨_, rfl⟩

namespace Expr

variable {scopes : Scopes} {e : Expr} {elements : List Expr} {typed : Typed} {types : List Ty}
  {t : Ty} {position : Position}

/-- An expression has a type by itself, when nothing asks for one. -/
def Infers (scopes : Scopes) (e : Expr) (type : Ty) : Prop :=
  ∃ typed, (e.initializer scopes none).outcome = .ok typed ∧ typed.type = type

/-- Two element types are joined to the greater one. -/
theorem outcome_joinElement {current next joined : Ty} :
    (joinElement (some current) next position).outcome = .ok joined ↔
      Ty.Greatest [current, next] joined := by
  rw [Ty.Greatest.pair_iff]
  simp only [joinElement]
  split
  · rename_i hsame
    simp [hsame, eq_comm]
  · rename_i hdiffers
    simp only [hdiffers, false_and, false_or, ne_eq, not_false_eq_true, true_and]
    split
    · rename_i p q
      cases hcommon : Primitive.common p q <;> simp [hcommon, eq_comm]
    · rename_i hother
      simp only [outcome_raise, reduceCtorEq, false_iff]
      rintro ⟨p, q, -, rfl, rfl, -⟩
      exact hother p q rfl rfl

/-- Element types are joined to the greatest of them. -/
theorem outcome_elementType {current : Ty} {element : Option Ty}
    (h : List.Forall₂ (Infers scopes) elements types) :
    (elementType scopes (some current) elements).outcome = .ok element ↔
      ∃ t, element = some t ∧ Ty.Greatest (current :: types) t := by
  induction h generalizing current with
  | nil => simp [elementType, eq_comm]
  | cons hhead _ ih =>
    obtain ⟨typed, htyped, rfl⟩ := hhead
    rw [elementType]
    simp only [Checked.outcome_bind_eq_ok_iff, htyped, Except.ok.injEq, exists_eq_left',
      outcome_joinElement, ih]
    constructor
    · rintro ⟨joined, hjoined, t, rfl, ht⟩
      exact ⟨t, rfl, Ty.Greatest.cons_cons_iff.2 ⟨joined, hjoined, ht⟩⟩
    · rintro ⟨t, rfl, ht⟩
      obtain ⟨joined, hjoined, ht⟩ := Ty.Greatest.cons_cons_iff.1 ht
      exact ⟨joined, hjoined, t, rfl, ht⟩

/-- The type of the elements is the greatest of theirs. -/
theorem outcome_elementType_none (hne : elements ≠ [])
    (h : List.Forall₂ (Infers scopes) elements types) :
    (elementType scopes none elements).outcome = .ok (some t) ↔ Ty.Greatest types t := by
  cases h with
  | nil => exact absurd rfl hne
  | cons hhead hothers =>
    obtain ⟨typed, htyped, rfl⟩ := hhead
    have hfirst : ∀ p, (joinElement none typed.type p).outcome = .ok typed.type := fun _ => rfl
    rw [elementType]
    simp [htyped, hfirst, outcome_elementType hothers]

/-- What has a type by itself is typed alike where its own type is asked for. -/
theorem initializer_own (h : (e.initializer scopes none).outcome = .ok typed) :
    (e.initializer scopes (some typed.type)).outcome = .ok typed := by
  cases e with
  | null => cases h
  | array elements position =>
    obtain ⟨element, type, texts, ⟨-, rfl⟩, htexts, rfl⟩ := eq_of_initializer_array h
    simp [initializer, arrayTarget, htexts]
  | _ => exact h

/-- Only values are of a type that yields to others, and they are typed alike whatever is asked
for. -/
theorem initializer_of_yields (h : (e.initializer scopes none).outcome = .ok typed)
    (hyields : typed.type.Yields t) :
    e.initializer scopes (some t) = e.initializer scopes (some typed.type) := by
  cases e with
  | null => cases h
  | array elements position =>
    obtain ⟨element, type, texts, ⟨-, rfl⟩, -, rfl⟩ := eq_of_initializer_array h
    cases hyields
    rfl
  | _ => rfl

/-- Elements that have types by themselves are written as elements of a type to which these
yield. -/
theorem exists_elementTexts (h : List.Forall₂ (Infers scopes) elements types)
    (hyields : ∀ s ∈ types, s.Yields t) :
    ∃ texts, (elementTexts scopes t elements).outcome = .ok texts := by
  induction h with
  | nil => exact ⟨[], by simp [elementTexts]⟩
  | cons hhead _ ih =>
    rw [List.forall_mem_cons] at hyields
    obtain ⟨typed, htyped, rfl⟩ := hhead
    obtain ⟨text, htext⟩ := Typed.exists_converted hyields.1 _
    obtain ⟨texts, htexts⟩ := ih hyields.2
    refine ⟨text :: texts, ?_⟩
    rw [elementTexts, initializer_of_yields htyped hyields.1]
    simp only [Checked.outcome_bind_eq_ok_iff]
    exact ⟨typed, initializer_own htyped, text, htext, texts, htexts, rfl⟩

/-- An array literal of elements with types has a type exactly if one of these is the greatest, and
then its elements are of that type. -/
theorem infers_array_iff (hne : elements ≠ []) (h : List.Forall₂ (Infers scopes) elements types) :
    (array elements position).Infers scopes t ↔
      ∃ element, Ty.Greatest types element ∧ t = .array element (some elements.length) := by
  constructor
  · rintro ⟨typed, htyped, rfl⟩
    obtain ⟨element, type, texts, ⟨helement, rfl⟩, -, rfl⟩ := eq_of_initializer_array htyped
    exact ⟨element, (outcome_elementType_none hne h).1 helement, rfl⟩
  · rintro ⟨element, hgreatest, rfl⟩
    have helement := (outcome_elementType_none hne h).2 hgreatest
    obtain ⟨texts, htexts⟩ := exists_elementTexts h hgreatest.yields
    exact ⟨{ text := "\x7b" ++ ", ".intercalate texts ++ "\x7d", type := _ },
      by simp [initializer, helement, htexts], rfl⟩

/-- Elements with types make an array literal with a type exactly if their types are all equal or
all numeric; the type of the elements is then the greatest of theirs. So their order does not
matter, and once their type is found, each of them can be converted to it. -/
theorem array_infers_greatest (position : Position) (hne : elements ≠ [])
    (h : List.Forall₂ (Infers scopes) elements types) :
    ((∃ t, (array elements position).Infers scopes t) ↔
        (∀ s ∈ types, ∀ t ∈ types, s = t) ∨ ∀ t ∈ types, t.isNumeric = true) ∧
      (∀ t, (array elements position).Infers scopes t ↔
        ∃ element, Ty.Greatest types element ∧ t = .array element (some elements.length)) ∧
      (∀ permuted position' t, elements.Perm permuted →
        ((array permuted position').Infers scopes t ↔
          (array elements position).Infers scopes t)) ∧
      ∀ element, (elementType scopes none elements).outcome = .ok (some element) →
        ∃ texts, (elementTexts scopes element elements).outcome = .ok texts := by
  have hlength := h.length_eq
  have hinfers : ∀ t, (array elements position).Infers scopes t ↔
      ∃ element, Ty.Greatest types element ∧ t = .array element (some elements.length) :=
    fun _ => infers_array_iff hne h
  have htypes : types ≠ [] := by
    rintro rfl
    exact hne (List.length_eq_zero_iff.1 hlength)
  refine ⟨?_, hinfers, fun permuted position' t hperm => ?_, fun element helement => ?_⟩
  · rw [← Ty.Greatest.exists_iff htypes]
    constructor
    · rintro ⟨t, ht⟩
      obtain ⟨element, helement, -⟩ := (hinfers t).1 ht
      exact ⟨element, helement⟩
    · rintro ⟨element, helement⟩
      exact ⟨_, (hinfers _).2 ⟨element, helement, rfl⟩⟩
  · obtain ⟨types', h', htypes'⟩ := List.perm_comp_forall₂ hperm.symm h
    have hne' : permuted ≠ [] := by
      rintro rfl
      exact hne hperm.eq_nil
    have hsame : ∀ element, Ty.Greatest types' element ↔ Ty.Greatest types element := fun _ =>
      ⟨fun hgreatest => hgreatest.perm htypes', fun hgreatest => hgreatest.perm htypes'.symm⟩
    rw [hinfers, infers_array_iff hne' h', hperm.length_eq]
    simp only [hsame]
  · exact exists_elementTexts h ((outcome_elementType_none hne h).1 helement).yields

/-- A scope with a variable of type `i64` and one of type `f32`. -/
private def wholeAndReal : Scopes :=
  ⟨⟨.global, [("whole", ⟨.primitive .i64, none, true⟩), ("real", ⟨.primitive .f32, none, true⟩)]⟩, []⟩

/-- The elements of `[whole, real, 1]`. -/
private def mixedElements : List Expr :=
  [.ident "whole" ⟨1, 2⟩, .ident "real" ⟨1, 9⟩, .number (.integer .i32 1) ⟨1, 15⟩]

/-- The whole numbers yield to the real one, which is neither the first nor the last element. -/
theorem mixedElements_infer_greatest :
    mixedElements ≠ [] ∧
      List.Forall₂ (Infers wholeAndReal) mixedElements
        [.primitive .i64, .primitive .f32, .primitive .i32] ∧
      (array mixedElements ⟨1, 1⟩).Infers wholeAndReal (.array (.primitive .f32) (some 3)) ∧
      (array mixedElements.reverse ⟨1, 1⟩).Infers wholeAndReal
        (.array (.primitive .f32) (some 3)) ∧
      ∃ texts, (elementTexts wholeAndReal (.primitive .f32) mixedElements).outcome = .ok texts := by
  have hne : mixedElements ≠ [] := by simp [mixedElements]
  have htypes : List.Forall₂ (Infers wholeAndReal) mixedElements
      [.primitive .i64, .primitive .f32, .primitive .i32] :=
    .cons ⟨_, rfl, rfl⟩ (.cons ⟨_, rfl, rfl⟩ (.cons ⟨_, rfl, rfl⟩ .nil))
  have hreal : Ty.Greatest [.primitive .i64, .primitive .f32, .primitive .i32] (.primitive .f32) :=
    ⟨by decide, by simpa using ⟨.numeric rfl rfl (by decide), .refl _,
      .numeric rfl rfl (by decide)⟩⟩
  obtain ⟨-, hinfers, hperm, htexts⟩ := array_infers_greatest ⟨1, 1⟩ hne htypes
  have htype := (hinfers _).2 ⟨_, hreal, rfl⟩
  exact ⟨hne, htypes, htype, (hperm _ _ _ (List.reverse_perm _).symm).2 htype, htexts _ rfl⟩

end Expr

end Sprout
