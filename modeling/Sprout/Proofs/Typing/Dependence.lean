import Sprout.Proofs.Typing.Parts

namespace Sprout.Expr

section Congruence

variable {scopes scopes' : Scopes} {e : Expr}

/-- Whether every name that an expression mentions means the same in two stacks of scopes. Typing
looks names up, and nothing else in the scopes matters to it. -/
def SameNames (scopes scopes' : Scopes) (e : Expr) : Prop :=
  ∀ name, e.mentions name = true → scopes.lookup name = scopes'.lookup name

/-- The names mentioned in a part are mentioned in the whole. -/
theorem SameNames.child (h : SameNames scopes scopes' e) :
    ∀ part ∈ e.children, SameNames scopes scopes' part :=
  fun _ hpart name hmentions => h name (mentions_of_child hpart hmentions)

/-- Several expressions are typed alike if each one is. -/
theorem values_congr {es : List Expr} (h : ∀ e ∈ es, e.value scopes = e.value scopes') :
    values scopes es = values scopes' es := by
  induction es with
  | nil => rfl
  | cons e es ih =>
    rw [List.forall_mem_cons] at h
    rw [values, values, h.1, ih h.2]

/-- The value of an expression depends on the names that it mentions, by induction on the
expression. Only a name by itself, and the sizes in a type, look anything up. -/
theorem value_congr (h : SameNames scopes scopes' e) : e.value scopes = e.value scopes' := by
  induction e using inductionOnChildren with
  | step e ih =>
    have hparts : ∀ part ∈ e.children, part.value scopes = part.value scopes' :=
      fun part hpart => ih part hpart (h.child part hpart)
    clear ih
    cases e with
    | ident name p =>
      have hname : scopes.lookup name = scopes'.lookup name := h name (by simp [mentions])
      simp only [value, Typed.ofName, hname]
    | binary | unary | stepBefore | stepAfter | index | field =>
      simp only [children, List.forall_mem_cons] at hparts
      simp only [value, hparts]
    | call name args p =>
      have hargs : values scopes args = values scopes' args := values_congr hparts
      simp only [value, hargs]
    | method receiver name args p =>
      simp only [children, List.forall_mem_cons] at hparts
      simp only [value, hparts.1, values_congr hparts.2]
    | convert name sizes args p =>
      cases sizes with
      | nil =>
        simp only [children, List.reduceOption_nil, List.append_nil] at hparts
        simp only [value, values_congr hparts]
      | cons => simp only [value]
    | array | null | typeName | number | literal => simp only [value]

section Elements

variable {es : List Expr}
  (h : ∀ e ∈ es, ∀ target, e.initializer scopes target = e.initializer scopes' target)

include h

/-- The type of the elements is the same if each element is typed alike. -/
theorem elementType_congr (current : Option Ty) :
    elementType scopes current es = elementType scopes' current es := by
  induction es generalizing current with
  | nil => rfl
  | cons e es ih =>
    rw [List.forall_mem_cons] at h
    simp only [elementType, h.1, ih h.2]

/-- The texts of the elements are the same if each element is typed alike. -/
theorem elementTexts_congr (element : Ty) :
    elementTexts scopes element es = elementTexts scopes' element es := by
  induction es with
  | nil => rfl
  | cons e es ih =>
    rw [List.forall_mem_cons] at h
    simp only [elementTexts, h.1, ih h.2]

end Elements

/-- So does what stands behind an equal sign, whatever type is asked for. -/
theorem initializer_congr (h : SameNames scopes scopes' e) (target : Option Ty) :
    e.initializer scopes target = e.initializer scopes' target := by
  induction e using inductionOnChildren generalizing target with
  | step e ih =>
    cases e with
    | null => simp only [initializer]
    | array elements p =>
      have hparts : ∀ e ∈ elements, ∀ target,
          e.initializer scopes target = e.initializer scopes' target :=
        fun part hpart => ih part hpart (h.child part hpart)
      simp only [initializer, elementType_congr hparts, elementTexts_congr hparts]
    | _ => exact value_congr h

end Congruence

section Mentioned

variable {scopes : Scopes} {e : Expr} {name : String}

/-- If several expressions mention a name, one of them does. -/
theorem exists_of_mentionsAny {es : List Expr} (h : mentionsAny name es = true) :
    ∃ e ∈ es, e.mentions name = true := by
  induction es with
  | nil => cases h
  | cons e es ih =>
    rw [mentionsAny, Bool.or_eq_true] at h
    rcases h with h | h
    · exact ⟨e, by simp, h⟩
    · obtain ⟨part, hpart, hmentions⟩ := ih h
      exact ⟨part, by simp [hpart], hmentions⟩

/-- In an expression that can be typed, a name is mentioned as a variable or in a part: members that
are not called and the dimensions of types, which mention names too, are refused. -/
theorem Accepted.exists_of_mentions (h : Accepted scopes e) (hmentions : e.mentions name = true) :
    (∃ position, e = .ident name position) ∨ ∃ part ∈ e.children, part.mentions name = true := by
  cases e with
  | ident own p =>
    have hown : own = name := by simpa [mentions] using hmentions
    exact .inl ⟨p, by rw [hown]⟩
  | binary | index | unary | stepBefore | stepAfter =>
    refine .inr ?_
    simpa [mentions, children] using hmentions
  | call | array => exact .inr (exists_of_mentionsAny hmentions)
  | method receiver own args p =>
    refine .inr ?_
    rw [mentions, Bool.or_eq_true] at hmentions
    rcases hmentions with hreceiver | hargs
    · exact ⟨receiver, by simp [children], hreceiver⟩
    · obtain ⟨part, hpart, hmentions⟩ := exists_of_mentionsAny hargs
      exact ⟨part, by simp [children, hpart], hmentions⟩
  | convert own sizes args p =>
    obtain ⟨typed, htyped⟩ := h.value (by simp) (by simp)
    cases sizes with
    | cons => simp [Expr.value] at htyped
    | nil =>
      rw [mentions, mentionsDimension, Bool.or_false] at hmentions
      obtain ⟨part, hpart, hmentions⟩ := exists_of_mentionsAny hmentions
      exact .inr ⟨part, by simp [children, hpart], hmentions⟩
  | field | typeName =>
    obtain ⟨typed, htyped⟩ := h.value (by simp) (by simp)
    simp [Expr.value] at htyped
  | number | literal | null => cases hmentions

/-- An expression that can be typed looks up every name that it mentions. -/
theorem Accepted.reads_of_mentions (h : Accepted scopes e) (hmentions : e.mentions name = true) :
    Reads name e := by
  induction e using inductionOnChildren with
  | step e ih =>
    rcases h.exists_of_mentions hmentions with ⟨position, rfl⟩ | ⟨part, hpart, hmentions⟩
    · exact ⟨position, .self⟩
    · obtain ⟨position, hwithin⟩ := ih part hpart (h.child hpart) hmentions
      exact ⟨position, .child hpart hwithin⟩

/-- Mentioning a name is depending on it. What does not mention it is typed the same way, as a value
and behind an equal sign, whatever the name means; and what mentions it cannot be typed as a value
unless the name means something. -/
theorem typing_depends_on_mentioned (e : Expr) (name : String) (scopes : Scopes) :
    (e.mentions name = false → ∀ scopes' : Scopes,
        (∀ other, other ≠ name → scopes'.lookup other = scopes.lookup other) →
          e.value scopes' = e.value scopes ∧
            ∀ target, e.initializer scopes' target = e.initializer scopes target) ∧
      (e.mentions name = true → ∀ typed, (e.value scopes).outcome = .ok typed →
        ∃ symbol, scopes.lookup name = some symbol) := by
  constructor
  · intro hmentions scopes' hlookup
    have hsame : SameNames scopes' scopes e := by
      intro other hother
      refine hlookup other ?_
      rintro rfl
      rw [hmentions] at hother
      cases hother
    exact ⟨value_congr hsame, initializer_congr hsame⟩
  · intro hmentions typed htyped
    have haccepted := Accepted.of_value htyped
    exact haccepted.lookup (haccepted.reads_of_mentions hmentions)

/-- The expression `max(v[k], 2)`. -/
private def largest : Expr :=
  .call "max" [.index (.ident "v" ⟨1, 5⟩) (.ident "k" ⟨1, 7⟩), .number (.integer .i32 2) ⟨1, 11⟩]
    ⟨1, 1⟩

/-- A main block that declares the names `v` and `k`. -/
private def largestScopes : Scopes :=
  { current :=
      { kind := .main
        symbols := [("v", ⟨.array .i64 none, none, true⟩), ("k", ⟨.u64, none, true⟩)] }
    enclosing := [{ kind := .global }] }

/-- The call does not depend on a variable of the name of its function, which is mentioned nowhere,
but it does on `k`. -/
theorem largest_depends_on_mentioned :
    largest.mentions "max" = false ∧ largest.mentions "k" = true ∧
      (∃ typed, (largest.value largestScopes).outcome = .ok typed) ∧
      (∀ scopes' : Scopes,
        (∀ other, other ≠ "max" → scopes'.lookup other = largestScopes.lookup other) →
          largest.value scopes' = largest.value largestScopes ∧
            ∀ target, largest.initializer scopes' target =
              largest.initializer largestScopes target) ∧
      ∃ symbol, largestScopes.lookup "k" = some symbol := by
  have hmax : largest.mentions "max" = false := by decide +kernel
  have hk : largest.mentions "k" = true := by decide +kernel
  have hisOk : (largest.value largestScopes).outcome.isOk = true := by decide +kernel
  obtain ⟨typed, htyped⟩ := exists_eq_ok_of_isOk hisOk
  exact ⟨hmax, hk, ⟨typed, htyped⟩, (typing_depends_on_mentioned largest "max" largestScopes).1 hmax,
    (typing_depends_on_mentioned largest "k" largestScopes).2 hk typed htyped⟩

end Mentioned

end Sprout.Expr
