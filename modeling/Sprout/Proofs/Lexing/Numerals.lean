import Sprout.Proofs.Lexing

namespace Sprout.Token

/-- A fraction, or nothing: a point with at least one digit. -/
def IsFraction (text : List Char) : Prop :=
  text = [] ∨ ∃ d digits, text = '.' :: d :: digits ∧ d.isDigit = true ∧
    ∀ c ∈ digits, c.isDigit = true

/-- An exponent, or nothing: a letter, perhaps a sign, and at least one digit. -/
def IsExponent (text : List Char) : Prop :=
  text = [] ∨ ∃ e sign digits, text = e :: (sign ++ digits) ∧ (e = 'e' ∨ e = 'E') ∧
    (sign = [] ∨ sign = ['+'] ∨ sign = ['-']) ∧ digits ≠ [] ∧ ∀ c ∈ digits, c.isDigit = true

/-- The suffix of a number, or nothing. -/
def IsSuffix (text : List Char) : Prop :=
  text = [] ∨ text = ['f'] ∨ text = ['i']

/-- The kind of a number by its parts. -/
def numeralKind (fraction exponent suffix : List Char) : Kind :=
  if suffix = ['f'] then .single
  else if suffix = ['i'] then .double
  else if fraction = [] ∧ exponent = [] then .integer
  else .double

/-- Nothing that goes on with a number stands in front of a text. -/
def EndsNumber (rest : List Char) : Prop :=
  ∀ c ∈ rest.head?, c.isDigit = false ∧ c ≠ '.' ∧ c ≠ 'e' ∧ c ≠ 'E' ∧ c ≠ 'f' ∧ c ≠ 'i'

variable {fraction exponent suffix rest : List Char}

/-- A fraction is found as a whole, if no digit and no dot stands behind it. -/
theorem fractionLength_append (h : IsFraction fraction)
    (hrest : ∀ c ∈ rest.head?, c.isDigit = false ∧ c ≠ '.') :
    fractionLength (fraction ++ rest) = fraction.length := by
  rcases h with rfl | ⟨d, digits, rfl, hd, hdigits⟩
  · cases rest with
    | nil => rfl
    | cons c rest =>
      have hpoint : c ≠ '.' := (hrest c rfl).2
      rw [List.nil_append, fractionLength]
      · rfl
      · rintro d more heq
        exact hpoint (List.cons.inj heq).1
  · simp [fractionLength, hd, runLength_append hdigits fun c hc => (hrest c hc).1]
    omega

/-- An exponent is found as a whole, if no digit and no other exponent stands behind it. -/
theorem exponentLength_append (h : IsExponent exponent)
    (hrest : ∀ c ∈ rest.head?, c.isDigit = false ∧ c ≠ 'e' ∧ c ≠ 'E') :
    exponentLength (exponent ++ rest) = exponent.length := by
  rcases h with rfl | ⟨e, sign, digits, rfl, he, hsign, hne, hdigits⟩
  · cases rest with
    | nil => rfl
    | cons c rest =>
      obtain ⟨-, hsmall, hlarge⟩ := hrest c rfl
      simp [exponentLength, hsmall, hlarge]
  · have hletter : (e = 'e' || e = 'E') = true := by simpa using he
    have hrun : runLength Char.isDigit (digits ++ rest) = digits.length :=
      runLength_append hdigits fun c hc => (hrest c hc).1
    obtain ⟨d, others, rfl⟩ := List.exists_cons_of_ne_nil hne
    have hd : d.isDigit = true := hdigits d (by simp)
    have hplus : d ≠ '+' := by rintro rfl; cases hd
    have hminus : d ≠ '-' := by rintro rfl; cases hd
    rcases hsign with rfl | rfl | rfl
    · simp [exponentLength, hletter, hplus, hminus] at hrun ⊢
      simp [hrun]
      omega
    · simp [exponentLength, hletter] at hrun ⊢
      simp [hrun]
      omega
    · simp [exponentLength, hletter] at hrun ⊢
      simp [hrun]
      omega

/-- A suffix starts with a letter that starts no other part of a number. -/
theorem suffix_head (hsuffix : IsSuffix suffix) (hrest : EndsNumber rest) :
    ∀ c ∈ (suffix ++ rest).head?, c.isDigit = false ∧ c ≠ '.' ∧ c ≠ 'e' ∧ c ≠ 'E' := by
  intro c hc
  rcases hsuffix with rfl | rfl | rfl
  · obtain ⟨hdigit, hpoint, hsmall, hlarge, -⟩ := hrest c hc
    exact ⟨hdigit, hpoint, hsmall, hlarge⟩
  · cases hc
    decide
  · cases hc
    decide

/-- An exponent starts with a letter, or else its suffix does, so no fraction goes on there. -/
theorem exponent_head (hexponent : IsExponent exponent) (hsuffix : IsSuffix suffix)
    (hrest : EndsNumber rest) :
    ∀ c ∈ (exponent ++ (suffix ++ rest)).head?, c.isDigit = false ∧ c ≠ '.' := by
  intro c hc
  rcases hexponent with rfl | ⟨e, sign, digits, rfl, he, -⟩
  · obtain ⟨hdigit, hpoint, -⟩ := suffix_head hsuffix hrest c hc
    exact ⟨hdigit, hpoint⟩
  · cases hc
    rcases he with rfl | rfl <;> decide

/-- A fraction starts with a dot, or else the parts behind it start with letters, so no digits go on
there. -/
theorem fraction_head (hfraction : IsFraction fraction) (hexponent : IsExponent exponent)
    (hsuffix : IsSuffix suffix) (hrest : EndsNumber rest) :
    ∀ c ∈ (fraction ++ (exponent ++ (suffix ++ rest))).head?, c.isDigit = false := by
  intro c hc
  rcases hfraction with rfl | ⟨d, digits, rfl, -⟩
  · exact (exponent_head hexponent hsuffix hrest c hc).1
  · cases hc
    decide

/-- A number with all its parts is taken as a whole, each part by the step of the lexer for it. What
stands behind the number must not go on with it. -/
theorem number_of_parts {whole fraction exponent suffix rest : List Char}
    (hwhole : ∀ c ∈ whole, c.isDigit = true) (hfraction : IsFraction fraction)
    (hexponent : IsExponent exponent) (hsuffix : IsSuffix suffix) (hrest : EndsNumber rest) :
    number (whole ++ (fraction ++ (exponent ++ (suffix ++ rest)))) =
      (numeralKind fraction exponent suffix,
        whole.length + fraction.length + exponent.length + suffix.length) := by
  have hwholeLength := runLength_append hwhole
    (fraction_head hfraction hexponent hsuffix hrest)
  have hfractionLength := fractionLength_append hfraction (exponent_head hexponent hsuffix hrest)
  have hexponentLength : exponentLength (exponent ++ (suffix ++ rest)) = exponent.length :=
    exponentLength_append hexponent fun c hc => by
      obtain ⟨hdigit, -, hletters⟩ := suffix_head hsuffix hrest c hc
      exact ⟨hdigit, hletters⟩
  have hbehind : (whole ++ (fraction ++ (exponent ++ (suffix ++ rest)))).drop
      (whole.length + fraction.length) = exponent ++ (suffix ++ rest) := by
    rw [← List.drop_drop, List.drop_left, List.drop_left]
  have hend : (whole ++ (fraction ++ (exponent ++ (suffix ++ rest)))).drop
      (whole.length + fraction.length + exponent.length) = suffix ++ rest := by
    rw [← List.drop_drop, hbehind, List.drop_left]
  simp only [number, hwholeLength, List.drop_left, hfractionLength, hbehind, hexponentLength, hend]
  rcases hsuffix with rfl | rfl | rfl
  · have hnone : ∀ c more, rest = c :: more → c ≠ 'f' ∧ c ≠ 'i' := by
      rintro c more rfl
      obtain ⟨-, -, -, -, hf, hi⟩ := hrest c rfl
      exact ⟨hf, hi⟩
    split
    · rename_i more heq
      exact absurd rfl (hnone 'f' more heq).1
    · rename_i more heq
      exact absurd rfl (hnone 'i' more heq).2
    · simp [numeralKind, List.length_eq_zero_iff]
  · simp [numeralKind]
  · simp [numeralKind]

variable {text : List Char}

/-- All characters of a run pass the test of the run. -/
theorem take_runLength (p : Char → Bool) : ∀ c ∈ text.take (runLength p text), p c = true :=
  fun _ hc => mem_take_runLength hc

/-- A run is no longer than its text. -/
theorem runLength_le (p : Char → Bool) (text : List Char) : runLength p text ≤ text.length :=
  (List.takeWhile_sublist p).length_le

/-- What is taken for a fraction is one. -/
theorem take_fractionLength (text : List Char) :
    IsFraction (text.take (fractionLength text)) ∧ fractionLength text ≤ text.length := by
  unfold fractionLength
  split
  · rename_i d rest
    split
    · rename_i hd
      refine ⟨.inr ⟨d, rest.take (runLength Char.isDigit rest), ?_, hd, take_runLength _⟩, ?_⟩
      · rw [Nat.add_comm 2, List.take_succ_cons, List.take_succ_cons]
      · have hle := runLength_le Char.isDigit rest
        simp only [List.length_cons]
        omega
    · exact ⟨.inl rfl, by simp⟩
  · exact ⟨.inl rfl, by simp⟩

/-- Behind the letter of an exponent stand perhaps a sign, and digits. -/
theorem exponentLength_cons {e : Char} (rest : List Char) (he : e = 'e' ∨ e = 'E') :
    ∃ sign digits, rest = sign ++ digits ∧ (sign = [] ∨ sign = ['+'] ∨ sign = ['-']) ∧
      exponentLength (e :: rest) =
        if runLength Char.isDigit digits = 0 then 0
        else sign.length + 1 + runLength Char.isDigit digits := by
  have hletter : (e = 'e' || e = 'E') = true := by simpa using he
  by_cases hplus : rest.head? = some '+'
  · obtain ⟨digits, rfl⟩ := List.head?_eq_some_iff.1 hplus
    exact ⟨['+'], digits, rfl, by simp, by simp [exponentLength, hletter]⟩
  · by_cases hminus : rest.head? = some '-'
    · obtain ⟨digits, rfl⟩ := List.head?_eq_some_iff.1 hminus
      exact ⟨['-'], digits, rfl, by simp, by simp [exponentLength, hletter]⟩
    · exact ⟨[], rest, rfl, by simp, by simp [exponentLength, hletter, hplus, hminus]⟩

/-- What is taken for an exponent is one: a letter, perhaps a sign, and digits; or nothing, if there
are no digits. -/
theorem take_exponentLength (text : List Char) :
    IsExponent (text.take (exponentLength text)) ∧ exponentLength text ≤ text.length := by
  cases text with
  | nil => exact ⟨.inl rfl, by simp [exponentLength]⟩
  | cons e rest =>
    by_cases he : e = 'e' ∨ e = 'E'
    · obtain ⟨sign, digits, rfl, hsign, hlength⟩ := exponentLength_cons rest he
      rw [hlength]
      split
      · exact ⟨.inl rfl, by simp⟩
      · rename_i hdigits
        have hle := runLength_le Char.isDigit digits
        refine ⟨.inr ⟨e, sign, digits.take (runLength Char.isDigit digits), ?_, he, hsign, ?_,
          take_runLength _⟩, ?_⟩
        · rw [Nat.add_right_comm, List.take_succ_cons, List.take_append]
          simp
        · intro hnil
          rw [List.take_eq_nil_iff] at hnil
          rcases hnil with hzero | rfl
          · exact hdigits hzero
          · exact hdigits rfl
        · simp only [List.length_cons, List.length_append]
          omega
    · have hzero : exponentLength (e :: rest) = 0 := by simp [exponentLength, he]
      rw [hzero]
      exact ⟨.inl rfl, by simp⟩

/-- What is taken for a number has the shape of one. Together with `number_of_parts` this says what
the lexer takes for a number. -/
theorem parts_of_number {kind : Kind} {length : Nat} (h : number text = (kind, length)) :
    length ≤ text.length ∧ ∃ whole fraction exponent suffix,
      text.take length = whole ++ (fraction ++ (exponent ++ suffix)) ∧
      (∀ c ∈ whole, c.isDigit = true) ∧ IsFraction fraction ∧ IsExponent exponent ∧
      IsSuffix suffix ∧ kind = numeralKind fraction exponent suffix := by
  obtain ⟨w, hw⟩ : ∃ w, w = runLength Char.isDigit text := ⟨_, rfl⟩
  obtain ⟨f, hf⟩ : ∃ f, f = fractionLength (text.drop w) := ⟨_, rfl⟩
  obtain ⟨x, hx⟩ : ∃ x, x = exponentLength (text.drop (w + f)) := ⟨_, rfl⟩
  have hwhole : w ≤ text.length := hw ▸ runLength_le _ _
  obtain ⟨hfraction, hfle⟩ := take_fractionLength (text.drop w)
  obtain ⟨hexponent, hxle⟩ := take_exponentLength (text.drop (w + f))
  rw [← hf, List.length_drop] at hfle
  rw [← hx, List.length_drop] at hxle
  rw [← hf] at hfraction
  rw [← hx] at hexponent
  have hnone : ∀ {n k : Nat}, n ≤ text.length - k → ((text.drop k).take n = [] ↔ n = 0) := by
    intro n k hle
    rw [List.take_eq_nil_iff, List.drop_eq_nil_iff]
    omega
  have htake : ∀ n, text.take (w + f + x + n) = text.take w ++ ((text.drop w).take f ++
      ((text.drop (w + f)).take x ++ (text.drop (w + f + x)).take n)) := by
    intro n
    rw [List.take_add, List.take_add, List.take_add]
    simp only [List.append_assoc]
  have hbehind : ∀ c rest, text.drop (w + f + x) = c :: rest → w + f + x < text.length := by
    intro c rest hrest
    by_contra hnot
    rw [List.drop_eq_nil_of_le (by omega)] at hrest
    cases hrest
  -- Only the suffix, of one letter or none, decides between the three cases.
  simp only [number, ← hw, ← hf, ← hx] at h
  split at h
  · rename_i rest hrest
    cases h
    have hlt := hbehind _ _ hrest
    refine ⟨by omega, _, _, _, _, htake 1, hw ▸ take_runLength _, hfraction, hexponent, ?_, ?_⟩
    · rw [hrest]
      exact .inr (.inl rfl)
    · rw [hrest]
      rfl
  · rename_i rest hrest
    cases h
    have hlt := hbehind _ _ hrest
    refine ⟨by omega, _, _, _, _, htake 1, hw ▸ take_runLength _, hfraction, hexponent, ?_, ?_⟩
    · rw [hrest]
      exact .inr (.inr rfl)
    · rw [hrest]
      rfl
  · cases h
    refine ⟨by omega, _, _, _, _, htake 0, hw ▸ take_runLength _, hfraction, hexponent, .inl rfl,
      ?_⟩
    simp [numeralKind, hnone hfle, hnone (show x ≤ text.length - (w + f) by omega)]

/-- A number stays one in front of any text that does not go on with it. -/
theorem number_take {kind : Kind} {length : Nat} {rest : List Char}
    (h : number text = (kind, length)) (hrest : EndsNumber rest) :
    number (text.take length ++ rest) = (kind, length) := by
  obtain ⟨hle, whole, fraction, exponent, suffix, htake, hwhole, hfraction, hexponent, hsuffix, rfl⟩ :=
    parts_of_number h
  have hlength : (text.take length).length = length := List.length_take_of_le hle
  have hnumber := number_of_parts hwhole hfraction hexponent hsuffix hrest
  rw [htake] at hlength ⊢
  simp only [List.append_assoc] at hnumber ⊢
  rw [hnumber, ← hlength]
  simp only [List.length_append, Nat.add_assoc]

end Sprout.Token
