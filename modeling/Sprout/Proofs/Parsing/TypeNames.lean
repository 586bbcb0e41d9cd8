import Sprout.Proofs.Lexing.Numerals
import Sprout.Proofs.Outcome
import Sprout.Proofs.Parsing.Completeness

namespace Sprout

/-- A size of fewer than 65 bits is one that a type can have. -/
theorem Primitive.u64_holdsInteger {n : Nat} (h : n < 2 ^ 64) : u64.holdsInteger n = true := by
  have hrange : u64.integerRange = some (0, 18446744073709551615) := by decide
  rw [holdsInteger, hrange]
  simp only [Bool.and_eq_true, decide_eq_true_eq]
  omega

namespace Ty

/-- Whether a type can be written in a program: it is made of values, and the sizes of its arrays
are above zero and fit 64 bits. Its dimensions stand behind the name of a primitive type, the
outermost first. -/
inductive IsWritten : Ty → Prop
  | primitive {name} (hname : name ≠ .void) : IsWritten (.primitive name)
  | vector {element} (h : IsWritten element) : IsWritten (.array element none)
  | fixed {element size} (hpos : 0 < size) (hsize : size < 2 ^ 64) (h : IsWritten element) :
      IsWritten (.array element (some size))

/-- The type with dimensions, the outermost first, around a primitive type. -/
def shaped (name : Primitive) (sizes : List (Option Nat)) : Ty :=
  sizes.foldr (fun size element => array element size) (primitive name)

/-- The dimensions as they are written, one behind the other. -/
def dimensions (sizes : List (Option Nat)) : String :=
  String.join (sizes.map dimension)

/-- Whether a dimension can be written: its size, if it has one, is above zero and fits 64 bits. -/
def FitsDimension (size : Option Nat) : Prop :=
  ∀ n, size = some n → 0 < n ∧ n < 2 ^ 64

variable {t : Ty}

/-- A type that can be written is a primitive type with dimensions around it. -/
theorem IsWritten.exists_shaped (h : t.IsWritten) :
    ∃ name sizes, name ≠ .void ∧ (∀ size ∈ sizes, FitsDimension size) ∧ t = shaped name sizes := by
  induction h with
  | @primitive name hname => exact ⟨name, [], hname, by simp, rfl⟩
  | vector _ ih =>
    obtain ⟨name, sizes, hname, hsizes, rfl⟩ := ih
    refine ⟨name, none :: sizes, hname, List.forall_mem_cons.2 ⟨?_, hsizes⟩, rfl⟩
    rintro n ⟨⟩
  | @fixed _ size hpos hsize _ ih =>
    obtain ⟨name, sizes, hname, hsizes, rfl⟩ := ih
    refine ⟨name, some size :: sizes, hname, List.forall_mem_cons.2 ⟨?_, hsizes⟩, rfl⟩
    rintro n ⟨⟩
    exact ⟨hpos, hsize⟩

/-- Dimensions are written behind the name of the type, the outermost first. -/
theorem renderWith_shaped (written : String) (name : Primitive) (sizes : List (Option Nat)) :
    renderWith written (shaped name sizes) = name.name ++ (written ++ dimensions sizes) := by
  induction sizes generalizing written with
  | nil => simp [shaped, renderWith, dimensions]
  | cons size sizes ih =>
    have hinner := ih (written ++ dimension size)
    rw [String.append_assoc] at hinner
    rw [dimensions, List.map_cons, String.join_cons]
    exact hinner

/-- A type is written as the name of its primitive type and its dimensions. -/
theorem render_shaped (name : Primitive) (sizes : List (Option Nat)) :
    (shaped name sizes).render = name.name ++ dimensions sizes := by
  rw [render, renderWith_shaped, String.empty_append]

/-- Dimensions start with a bracket. -/
theorem head?_dimensions {sizes : List (Option Nat)} (c : Char)
    (h : c ∈ (dimensions sizes).toList.head?) : c = '[' := by
  cases sizes with
  | nil => cases h
  | cons size sizes =>
    rw [dimensions, List.map_cons, String.join_cons] at h
    cases size <;> simpa [dimension] using h.symm

end Ty

namespace Token

variable {p : Position} {rest : List Char}

/-- An opening bracket is read as one, whatever stands behind it. -/
theorem Scans.openBracket : Scans p ['['] rest [⟨.openBracket, "[", p⟩] :=
  .token rfl (by cases rest <;> rfl)

/-- A closing bracket is read as one, whatever stands behind it. -/
theorem Scans.closeBracket : Scans p [']'] rest [⟨.closeBracket, "]", p⟩] :=
  .token rfl (by cases rest <;> rfl)

/-- A size is one token in front of its closing bracket. -/
theorem Scans.size (n : Nat) : Scans p (Nat.toDigits 10 n) (']' :: rest)
    [⟨.integer, String.ofList (Nat.toDigits 10 n), p⟩] := by
  have hdigits : ∀ c ∈ Nat.toDigits 10 n, c.isDigit = true := fun c hc =>
    Nat.isDigit_of_mem_toDigits (by decide) (by decide) hc
  have hends : EndsNumber (']' :: rest) := by
    rintro c ⟨⟩
    decide
  have hnumber := number_of_parts hdigits (.inl rfl) (.inl rfl) (.inl rfl) hends
  exact .integer Nat.toDigits_ne_nil hdigits (by simpa [numeralKind] using hnumber)

/-- The name of a primitive type is read as the word for that type. -/
theorem wordKind_name (name : Primitive) : wordKind name.name = .type name := by
  cases name <;> decide +kernel

/-- The name of a primitive type is one token. -/
theorem Scans.typeName (name : Primitive) (hrest : Breaks rest) :
    Scans p name.name.toList rest [⟨.type name, name.name, p⟩] := by
  have hletters : name.name.toList.head?.any isNameStart = true ∧
      name.name.toList.all isNamePart = true := by
    cases name <;> exact ⟨rfl, rfl⟩
  cases hcons : name.name.toList with
  | nil =>
    rw [hcons] at hletters
    cases hletters.1
  | cons c more =>
    rw [hcons, List.all_cons, Bool.and_eq_true, List.all_eq_true] at hletters
    have hword := Scans.word hletters.1 hletters.2.2 hrest (p := p)
    rw [← hcons, String.ofList_toList, wordKind_name] at hword
    rwa [← hcons]

end Token

namespace Expr

variable {p : Position} {n : Nat}

/-- A size that fits is worked out to be what it is. -/
theorem outcome_dimension (scopes : Scopes) (hpos : 0 < n) (hn : n < 2 ^ 64) :
    (dimension scopes (.number (.ofNat n) p)).outcome = .ok n := by
  have htyped : ∃ type, Number.ofNat n = .integer type n ∧ type.isInteger = true := by
    unfold Number.ofNat
    split
    · exact ⟨_, rfl, rfl⟩
    · split <;> exact ⟨_, rfl, rfl⟩
  obtain ⟨type, hnumber, hinteger⟩ := htyped
  have htype : Ty.isInteger (.primitive (Number.integer type n).type) = true := hinteger
  simp [hnumber, dimension, value, Typed.ofNumber, htype, hpos, Primitive.u64_holdsInteger hn]

/-- Written dimensions are read as brackets around their sizes, and resolved to the dimensions that
were written. -/
theorem exists_dimensions (p : Position) {sizes : List (Option Nat)}
    (hsizes : ∀ size ∈ sizes, Ty.FitsDimension size) :
    ∃ ts es n, Token.Scans p (Ty.dimensions sizes).toList [] ts ∧ (∀ t ∈ ts, t.kind ≠ .eof) ∧
      Derives (.dimensions es) n ts ∧ n ≤ 2 ∧
      ∀ scopes name, (dimensioned scopes (.primitive name) es).outcome = .ok (.shaped name sizes) := by
  induction sizes generalizing p with
  | nil => exact ⟨[], [], 1, .nil, by simp, .noDimension, by omega, fun _ _ => rfl⟩
  | cons size sizes ih =>
    rw [List.forall_mem_cons] at hsizes
    cases size with
    | none =>
      have htext : (Ty.dimensions (none :: sizes)).toList =
          ['['] ++ ([']'] ++ (Ty.dimensions sizes).toList) := by
        simp [Ty.dimensions, Ty.dimension, String.join_cons]
      obtain ⟨ts, es, n, hscans, hkinds, hderives, hn, hresolved⟩ :=
        ih ((p.after ['[']).after [']']) hsizes.2
      have hscans' := Token.Scans.append .openBracket (.append .closeBracket hscans)
      refine ⟨_, none :: es, n, htext ▸ hscans', ?_, .unsized rfl rfl hderives, hn, ?_⟩
      · simpa using hkinds
      · intro scopes name
        simp [dimensioned, hresolved, Ty.shaped]
    | some size =>
      obtain ⟨hpos, hsize⟩ := hsizes.1 size rfl
      have htext : (Ty.dimensions (some size :: sizes)).toList =
          ['['] ++ (Nat.toDigits 10 size ++ ([']'] ++ (Ty.dimensions sizes).toList)) := by
        simp [Ty.dimensions, Ty.dimension, String.join_cons, Nat.repr]
      obtain ⟨ts, es, n, hscans, hkinds, hderives, hn, hresolved⟩ :=
        ih (((p.after ['[']).after (Nat.toDigits 10 size)).after [']']) hsizes.2
      have hscans' :=
        Token.Scans.append .openBracket (.append (.size size) (.append .closeBracket hscans))
      have hnumber := Derives.number
        (t := ⟨.integer, String.ofList (Nat.toDigits 10 size), p.after ['[']⟩) (.inl rfl)
      rw [Number.ofLexeme_toDigits (Primitive.u64_holdsInteger hsize)] at hnumber
      have hsized := Derives.loosen (Nat.zero_le _) (.unary (.stepped (.primary hnumber)))
      refine ⟨_, some (.number (.ofNat size) (p.after ['['])) :: es, max 2 n, htext ▸ hscans', ?_,
        .sized rfl rfl hsized hderives, by omega, ?_⟩
      · simpa using hkinds
      · intro scopes name
        simp [dimensioned, hresolved, outcome_dimension scopes hpos hsize, Ty.shaped]

end Expr

/-- The written form of a type is read, parsed and resolved as the type, whatever the scopes are. -/
theorem Source.resolveType_render {t : Ty} (h : t.IsWritten) (name : String) (scopes : Scopes) :
    ∃ ts e, (Source.mk name t.render).tokens = .ok ts ∧ Expr.parseType ts = .ok e ∧
      (e.resolveType scopes).outcome = .ok t := by
  obtain ⟨base, sizes, hbase, hsizes, rfl⟩ := h.exists_shaped
  obtain ⟨ts, es, n, hscans, hkinds, hderives, hn, hresolved⟩ :=
    Expr.exists_dimensions (Position.start.after base.name.toList) hsizes
  have hbreaks : Token.Breaks ((Ty.dimensions sizes).toList ++ []) := by
    intro c hc
    rw [List.append_nil] at hc
    rw [Ty.head?_dimensions c hc]
    decide
  have htokens := ((Token.Scans.typeName (p := .start) base hbreaks).append hscans).scan_eq
  rw [← String.toList_append, ← Ty.render_shaped] at htokens
  refine ⟨_, .typeName base es .start, htokens, ?_, ?_⟩
  · have hbody : Expr.body (⟨.type base, base.name, .start⟩ ::
        (ts ++ [⟨.eof, "", Position.start.after (Ty.shaped base sizes).render.toList⟩])) =
          ⟨.type base, base.name, .start⟩ :: ts := by
      rw [Expr.body, List.takeWhile_cons_of_pos rfl,
        List.takeWhile_append_of_pos (by simpa using hkinds)]
      simp
    exact (hderives.parseType hbody rfl).1 (hn.trans (by decide))
  · have hnamed : (Expr.typeName base es .start).resolveType scopes =
        Expr.dimensioned scopes (.primitive base) es := by
      cases base <;> first | rfl | exact absurd rfl hbase
    rw [hnamed, hresolved]

/-- As many vectors as can be told. -/
private def mostVectors : Ty :=
  .array (.array (.primitive .i32) none) (some 18446744073709551615)

/-- The greatest size that a type can have is read and resolved as it was written. -/
theorem mostVectors_resolve :
    mostVectors.IsWritten ∧
      ∃ ts e, (Source.mk "most" "i32[18446744073709551615][]").tokens = .ok ts ∧
        Expr.parseType ts = .ok e ∧ (e.resolveType {}).outcome = .ok mostVectors := by
  have hwritten : mostVectors.IsWritten :=
    .fixed (by decide) (by decide) (.vector (.primitive (by decide)))
  have hrender : mostVectors.render = "i32[18446744073709551615][]" := by decide +kernel
  exact ⟨hwritten, hrender ▸ Source.resolveType_render hwritten "most" {}⟩

end Sprout
