import Sprout.Proofs.Elements.Types
import Sprout.Proofs.Silence

namespace Sprout

namespace Checked

variable {ε α β : Type}

@[simp] theorem warnings_pure (a : α) : (pure a : Checked ε α).warnings = [] := rfl

/-- A check that goes on with another one has the warnings of both. -/
theorem warnings_bind {x : Checked ε α} {f : α → Checked ε β} {a : α} (h : x.outcome = .ok a) :
    (x >>= f).warnings = x.warnings ++ (f a).warnings := by
  change (x.andThen f).warnings = _
  rw [andThen, h]

end Checked

namespace Expr

variable {scopes : Scopes} {e : Expr} {elements : List Expr} {typed : Typed} {t : Ty}
  {position : Position} {d : Diagnostic}

@[simp] theorem silent_joinElement (current : Option Ty) (next : Ty) :
    (joinElement current next position).Silent := by
  unfold joinElement
  repeat' split
  all_goals simp

@[simp] theorem silent_arrayTarget (target : Ty) (count : Nat) :
    (arrayTarget target count position).Silent := by
  unfold arrayTarget
  repeat' split
  all_goals simp

/-- The first pass has the warnings that the elements have by themselves. -/
theorem warnings_elementType {current element : Option Ty}
    (h : (elementType scopes current elements).outcome = .ok element) :
    (elementType scopes current elements).warnings =
      elements.flatMap fun e => (e.initializer scopes none).warnings := by
  induction elements generalizing current with
  | nil => rfl
  | cons e elements ih =>
    rw [elementType] at h ⊢
    simp only [Checked.outcome_bind_eq_ok_iff] at h
    obtain ⟨typed, htyped, joined, hjoined, hothers⟩ := h
    have hsilent : (joinElement current typed.type e.position).warnings = [] :=
      silent_joinElement current typed.type
    rw [Checked.warnings_bind htyped, Checked.warnings_bind hjoined, hsilent, ih hothers,
      List.flatMap_cons, List.nil_append]

/-- The elements whose types are joined have types by themselves, and these yield to the outcome, as
does the type before them. -/
theorem yields_of_elementType {current : Option Ty}
    (h : (elementType scopes current elements).outcome = .ok (some t)) :
    (∀ c, current = some c → c.Yields t) ∧ ∀ e ∈ elements, ∃ typed,
      (e.initializer scopes none).outcome = .ok typed ∧ typed.type.Yields t := by
  induction elements generalizing current with
  | nil =>
    cases h
    refine ⟨?_, by simp⟩
    rintro c ⟨rfl⟩
    exact .refl t
  | cons e elements ih =>
    rw [elementType] at h
    simp only [Checked.outcome_bind_eq_ok_iff] at h
    obtain ⟨typed, htyped, joined, hjoined, hrest⟩ := h
    obtain ⟨hkept, hothers⟩ := ih hrest
    have hjoined' : joined.Yields t := hkept joined rfl
    cases current with
    | none =>
      cases hjoined
      exact ⟨by simp, List.forall_mem_cons.2 ⟨⟨typed, htyped, hjoined'⟩, hothers⟩⟩
    | some c =>
      have hgreatest := outcome_joinElement.1 hjoined
      have hnext : typed.type.Yields t := (hgreatest.yields _ (by simp)).trans hjoined'
      refine ⟨?_, List.forall_mem_cons.2 ⟨⟨typed, htyped, hnext⟩, hothers⟩⟩
      rintro _ ⟨rfl⟩
      exact (hgreatest.yields c (by simp)).trans hjoined'

/-- The second pass has the warnings of all elements. -/
theorem mem_warnings_elementTexts {texts : List String}
    (h : (elementTexts scopes t elements).outcome = .ok texts) (he : e ∈ elements)
    (hd : d ∈ (e.initializer scopes (some t)).warnings) :
    d ∈ (elementTexts scopes t elements).warnings := by
  induction elements generalizing texts with
  | nil => cases he
  | cons first elements ih =>
    rw [elementTexts] at h ⊢
    simp only [Checked.outcome_bind_eq_ok_iff] at h
    obtain ⟨typed, htyped, text, htext, others, hothers, -⟩ := h
    rw [Checked.warnings_bind htyped, Checked.warnings_bind htext, Checked.warnings_bind hothers]
    rcases List.mem_cons.1 he with rfl | he
    · simp [hd]
    · simp [ih hothers he]

/-- Without a type, an array literal has the warnings of both passes; with the type that is found, it
has those of the second. -/
theorem warnings_initializer_array
    (h : ((array elements position).initializer scopes none).outcome = .ok typed) :
    ∃ element texts, (elementType scopes none elements).outcome = .ok (some element) ∧
      (elementTexts scopes element elements).outcome = .ok texts ∧
      ((array elements position).initializer scopes none).warnings =
        (elements.flatMap fun e => (e.initializer scopes none).warnings) ++
          (elementTexts scopes element elements).warnings ∧
      ((array elements position).initializer scopes (some typed.type)).warnings =
        (elementTexts scopes element elements).warnings := by
  obtain ⟨element, type, texts, ⟨helement, rfl⟩, htexts, rfl⟩ := eq_of_initializer_array h
  refine ⟨element, texts, helement, htexts, ?_, ?_⟩
  · rw [initializer, Checked.warnings_bind helement, warnings_elementType helement]
    dsimp only
    rw [Checked.warnings_bind (Checked.outcome_pure _), Checked.warnings_bind htexts]
    simp
  · have htarget : (arrayTarget (.array element (some elements.length)) elements.length
        position).outcome = .ok (element, .array element (some elements.length)) := by
      simp [arrayTarget]
    have hsilent : (arrayTarget (.array element (some elements.length)) elements.length
        position).warnings = [] := silent_arrayTarget _ _
    rw [initializer, Checked.warnings_bind htarget, hsilent, Checked.warnings_bind htexts]
    simp

/-- Everything that is warned of where no type is asked for is warned of where the type is. -/
theorem mem_warnings_initializer (h : (e.initializer scopes none).outcome = .ok typed)
    (hd : d ∈ (e.initializer scopes none).warnings) :
    d ∈ (e.initializer scopes (some typed.type)).warnings := by
  induction e using inductionOnChildren generalizing typed with
  | step e ih =>
    cases e with
    | null => cases h
    | array elements position =>
      obtain ⟨element, texts, helement, htexts, hnone, hown⟩ := warnings_initializer_array h
      rw [hown]
      rw [hnone, List.mem_append, List.mem_flatMap] at hd
      rcases hd with ⟨e, he, hd⟩ | hd
      · obtain ⟨typed, htyped, hyields⟩ := (yields_of_elementType helement).2 e he
        apply mem_warnings_elementTexts htexts he
        rw [initializer_of_yields htyped hyields]
        exact ih e (by simpa [children] using he) htyped hd
      · exact hd
    | _ => exact hd

/-- Only nested literals, and calls without a value, warn by themselves. -/
theorem array_or_void_of_warns (h : (e.initializer scopes none).outcome = .ok typed)
    (hwarns : (e.initializer scopes none).warnings ≠ []) :
    (∃ elements position, e = .array elements position) ∨ typed.type = .void := by
  cases e with
  | array elements position => exact .inl ⟨elements, position, rfl⟩
  | null => cases h
  | _ =>
    refine .inr ?_
    by_contra hvoid
    exact hwarns (silent_of_value h hvoid)

/-- Where the type of an array literal is found, asking for that type gives the same, without the
warnings that the elements have by themselves. These are warnings about the same conversions, so
that nothing is lost; and the warnings are equal exactly if no element warns by itself, as can only
nested literals and calls without a value. -/
theorem array_warns_again
    (h : ((array elements position).initializer scopes none).outcome = .ok typed) :
    ((array elements position).initializer scopes (some typed.type)).outcome = .ok typed ∧
      ((array elements position).initializer scopes none).warnings =
        (elements.flatMap fun e => (e.initializer scopes none).warnings) ++
          ((array elements position).initializer scopes (some typed.type)).warnings ∧
      (∀ d, d ∈ ((array elements position).initializer scopes none).warnings ↔
        d ∈ ((array elements position).initializer scopes (some typed.type)).warnings) ∧
      (((array elements position).initializer scopes none).warnings =
          ((array elements position).initializer scopes (some typed.type)).warnings ↔
        ∀ e ∈ elements, (e.initializer scopes none).warnings = []) ∧
      ∀ e ∈ elements, (e.initializer scopes none).warnings ≠ [] →
        (∃ nested position', e = .array nested position') ∨ e.Infers scopes .void := by
  obtain ⟨element, texts, helement, -, hnone, hown⟩ := warnings_initializer_array h
  rw [← hown] at hnone
  refine ⟨initializer_own h, hnone, fun d => ⟨mem_warnings_initializer h, fun hd => ?_⟩, ?_, ?_⟩
  · rw [hnone]
    exact List.mem_append_right _ hd
  · rw [hnone]
    simp
  · intro e he hwarns
    obtain ⟨own, htyped, -⟩ := (yields_of_elementType helement).2 e he
    exact (array_or_void_of_warns htyped hwarns).imp_right fun hvoid => ⟨own, htyped, hvoid⟩

/-- A scope with the variables `x` of type `i64` and `y` of type `f32`. -/
private def longAndSingle : Scopes :=
  ⟨⟨.global, [("x", ⟨.primitive .i64, none, true⟩), ("y", ⟨.primitive .f32, none, true⟩)]⟩, []⟩

/-- The literal `[[x, y]]`, in which `x` is narrowed. -/
private def nestedPair : Expr :=
  .array [.array [.ident "x" ⟨1, 3⟩, .ident "y" ⟨1, 6⟩] ⟨1, 2⟩] ⟨1, 1⟩

/-- The warning about the narrowing. -/
private def narrowedLong : Diagnostic :=
  .warning .precisionLoss "precision loss converting 'i64' to 'f32'" ⟨1, 3⟩

/-- The one conversion of the literal is reported twice, unless its type is asked for. -/
theorem nestedPair_warns_twice :
    ∃ typed, (nestedPair.initializer longAndSingle none).outcome = .ok typed ∧
      typed.type = .array (.array (.primitive .f32) (some 2)) (some 1) ∧
      (nestedPair.initializer longAndSingle none).warnings = [narrowedLong, narrowedLong] ∧
      (nestedPair.initializer longAndSingle (some typed.type)).warnings = [narrowedLong] :=
  ⟨_, rfl, rfl, by decide, by decide⟩

/-- The warning about the inner element is recorded twice, and once if the type is asked for. -/
theorem nestedPair_warns_again :
    ∃ typed, (nestedPair.initializer longAndSingle none).outcome = .ok typed ∧
      (nestedPair.initializer longAndSingle (some typed.type)).outcome = .ok typed ∧
      ∀ d, d ∈ (nestedPair.initializer longAndSingle none).warnings ↔
        d ∈ (nestedPair.initializer longAndSingle (some typed.type)).warnings := by
  obtain ⟨typed, htyped⟩ : ∃ typed, (nestedPair.initializer longAndSingle none).outcome = .ok typed :=
    ⟨_, rfl⟩
  obtain ⟨hown, -, hsame, -⟩ := array_warns_again htyped
  exact ⟨typed, htyped, hown, hsame⟩

end Expr

end Sprout
