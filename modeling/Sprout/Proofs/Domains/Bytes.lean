import Sprout.Proofs.Lexing.Lexemes

namespace Sprout

open Token

namespace Bytes

/-- The bytes of a character, each shown as the character of the same number. -/
def ofChar (c : Char) : List Char :=
  (String.utf8EncodeChar c).map Char.ofUInt8

/-- The bytes of a text. -/
def ofText (text : List Char) : List Char :=
  text.flatMap ofChar

/-- Whether a character takes more than one byte. The bytes of such a character count as wide too. -/
def isWide (c : Char) : Bool :=
  128 ≤ c.toNat

variable {c : Char} {text : List Char} {p : Char → Bool} {n : Nat}

/-- A byte is kept as the character with the same number, so that the same scanner can be run on
characters and on bytes. -/
theorem toNat_ofUInt8 {n : Nat} (h : n < 256) : (Char.ofUInt8 (UInt8.ofNat n)).toNat = n := by
  change (UInt8.ofNat n).toUInt32.toNat = n
  simp
  omega

/-- A character of one byte is that byte. -/
theorem ofChar_of_not_isWide (h : isWide c = false) : ofChar c = [c] := by
  have hlt : c.toNat < 128 := by simpa [isWide] using h
  have hle : c.val.toNat ≤ 127 := Nat.le_of_lt_succ hlt
  have hbyte : Char.ofUInt8 (UInt8.ofNat c.val.toNat) = c :=
    Char.toNat_inj.1 (toNat_ofUInt8 (Nat.lt_trans hlt (by decide)))
  unfold ofChar String.utf8EncodeChar
  dsimp only
  rw [if_pos hle, List.map_singleton, hbyte]

/-- The bytes behind the first one of a wide character have numbers from 128 to 191, so none of them
is a character that a token could end with. -/
theorem toNat_continuation (n : Nat) :
    128 ≤ (Char.ofUInt8 (UInt8.ofNat (n % 64 + 128))).toNat ∧
      (Char.ofUInt8 (UInt8.ofNat (n % 64 + 128))).toNat < 192 := by
  rw [toNat_ofUInt8 (by omega)]
  omega

/-- A character of several bytes starts with a lead byte; the bytes behind it are continuation
bytes. -/
theorem ofChar_of_isWide (h : isWide c = true) :
    ∃ lead others, ofChar c = lead :: others ∧ 192 ≤ lead.toNat ∧
      ∀ b ∈ others, 128 ≤ b.toNat ∧ b.toNat < 192 := by
  have hle : 128 ≤ c.toNat := by simpa [isWide] using h
  have hnot : ¬ c.val.toNat ≤ 127 := Nat.not_le_of_lt hle
  unfold ofChar String.utf8EncodeChar
  dsimp only
  rw [if_neg hnot]
  repeat' split
  all_goals
    refine ⟨_, _, rfl, ?_, ?_⟩
    · rw [toNat_ofUInt8 (by omega)]
      omega
    · simp only [List.map_cons, List.map_nil, List.forall_mem_cons, toNat_continuation, true_and]
      simp

@[simp] theorem ofText_nil : ofText [] = [] := rfl

/-- The bytes of a text are those of its characters one behind the other. -/
theorem ofText_cons (c : Char) (text : List Char) :
    ofText (c :: text) = ofChar c ++ ofText text :=
  List.flatMap_cons

/-- A character of one byte is its own byte. -/
theorem ofText_cons_of_not_isWide (h : isWide c = false) (text : List Char) :
    ofText (c :: text) = c :: ofText text := by
  rw [ofText_cons, ofChar_of_not_isWide h, List.singleton_append]

/-- The bytes of a wide character are wide. -/
theorem isWide_of_mem_ofChar (h : isWide c = true) : ∀ b ∈ ofChar c, isWide b = true := by
  obtain ⟨lead, others, hchar, hlead, hothers⟩ := ofChar_of_isWide h
  rw [hchar, List.forall_mem_cons]
  refine ⟨?_, fun b hb => ?_⟩
  · simp only [isWide, decide_eq_true_eq]
    omega
  · simpa [isWide] using (hothers b hb).1

/-- The bytes of a text start as the text does, as far as characters of one byte go. -/
theorem exists_ofText_cons (c : Char) (text : List Char) :
    ∃ b bytes, ofText (c :: text) = b :: bytes ∧ isWide b = isWide c ∧
      (isWide c = false → b = c ∧ bytes = ofText text) := by
  cases hc : isWide c with
  | false => exact ⟨c, _, ofText_cons_of_not_isWide hc text, hc, fun _ => ⟨rfl, rfl⟩⟩
  | true =>
    obtain ⟨lead, others, hchar, -⟩ := ofChar_of_isWide hc
    refine ⟨lead, others ++ ofText text, ?_, isWide_of_mem_ofChar hc lead (by simp [hchar]), by simp⟩
    rw [ofText_cons, hchar, List.cons_append]

/-- A character of one byte stands at the front of a text if it stands at the front of its bytes.
This is what makes a look at the next byte as good as a look at the next character. -/
theorem head?_ofText {d : Char} (hd : isWide d = false) (text : List Char) :
    (ofText text).head? = some d ↔ text.head? = some d := by
  cases text with
  | nil => simp
  | cons c text =>
    obtain ⟨b, bytes, htext, hwide, hnarrow⟩ := exists_ofText_cons c text
    rw [htext, List.head?_cons, List.head?_cons, Option.some.injEq, Option.some.injEq]
    constructor
    · rintro rfl
      exact (hnarrow (hwide ▸ hd)).1.symm
    · rintro rfl
      exact (hnarrow hd).1

/-- Characters of one byte are their own bytes. -/
theorem ofText_eq_self (h : ∀ c ∈ text, isWide c = false) : ofText text = text := by
  induction text with
  | nil => rfl
  | cons c text ih =>
    rw [List.forall_mem_cons] at h
    rw [ofText_cons_of_not_isWide h.1, ih h.2]

/-- Where all characters take one byte, bytes and characters are skipped in the same numbers. -/
theorem drop_ofText (h : ∀ c ∈ text.take n, isWide c = false) :
    (ofText text).drop n = ofText (text.drop n) := by
  induction text generalizing n with
  | nil => simp
  | cons c text ih =>
    cases n with
    | zero => rfl
    | succ n =>
      rw [List.take_succ_cons, List.forall_mem_cons] at h
      rw [ofText_cons_of_not_isWide h.1, List.drop_succ_cons, List.drop_succ_cons, ih h.2]

/-- Where all characters take one byte, the bytes in front are the characters in front. -/
theorem take_ofText (h : ∀ c ∈ text.take n, isWide c = false) :
    (ofText text).take n = text.take n := by
  induction text generalizing n with
  | nil => simp
  | cons c text ih =>
    cases n with
    | zero => rfl
    | succ n =>
      rw [List.take_succ_cons, List.forall_mem_cons] at h
      rw [ofText_cons_of_not_isWide h.1, List.take_succ_cons, List.take_succ_cons, ih h.2]

/-- The number of bytes of the first `n` characters of a text. -/
def size (n : Nat) (text : List Char) : Nat :=
  (ofText (text.take n)).length

/-- The bytes of some characters are counted from the front of the text. -/
theorem size_succ (n : Nat) (c : Char) (text : List Char) :
    size (n + 1) (c :: text) = size n text + (ofChar c).length := by
  rw [size, List.take_succ_cons, ofText_cons, List.length_append, Nat.add_comm, size]

/-- Characters of one byte each take as many bytes as they are. -/
theorem size_eq_self (hn : n ≤ text.length) (h : ∀ c ∈ text.take n, isWide c = false) :
    size n text = n := by
  rw [size, ofText_eq_self h, List.length_take_of_le hn]

/-- Whether a property of characters holds of all wide characters or of none. -/
def Blunt (p : Char → Bool) : Prop :=
  ∀ c d, isWide c = true → isWide d = true → p c = p d

/-- Whether a property of characters holds of no wide character. -/
def Narrow (p : Char → Bool) : Prop :=
  ∀ c, isWide c = true → p c = false

/-- A test that only characters of one byte pass cannot tell the bytes of a wide character apart: it
refuses the character and all of its bytes. -/
theorem Narrow.blunt (h : Narrow p) : Blunt p :=
  fun c d hc hd => by rw [h c hc, h d hd]

/-- What passes a narrow test takes one byte. -/
theorem Narrow.not_isWide (h : Narrow p) (hc : p c = true) : isWide c = false := by
  by_contra hwide
  rw [h c (by simpa using hwide)] at hc
  cases hc

/-- The longest run of bytes that pass a blunt test is the longest run of characters that do. -/
theorem takeWhile_ofText (hp : Blunt p) (text : List Char) :
    (ofText text).takeWhile p = ofText (text.takeWhile p) := by
  induction text with
  | nil => rfl
  | cons c text ih =>
    cases hc : isWide c with
    | false =>
      rw [ofText_cons_of_not_isWide hc, List.takeWhile_cons, List.takeWhile_cons, ih]
      split
      · rw [ofText_cons_of_not_isWide hc]
      · rfl
    | true =>
      have hbytes : ∀ b ∈ ofChar c, p b = p c := fun b hb =>
        hp b c (isWide_of_mem_ofChar hc b hb) hc
      rw [ofText_cons, List.takeWhile_cons]
      split
      · rename_i hpc
        rw [List.takeWhile_append_of_pos fun b hb => (hbytes b hb).trans hpc, ih, ofText_cons]
      · rename_i hpc
        obtain ⟨lead, others, hchar, -⟩ := ofChar_of_isWide hc
        rw [hchar, List.cons_append, List.takeWhile_cons_of_neg]
        · rfl
        · rw [hbytes lead (by simp [hchar])]
          exact hpc

/-- A run that is measured in bytes is as long as its characters are wide. -/
theorem runLength_ofText (hp : Blunt p) (text : List Char) :
    runLength p (ofText text) = size (runLength p text) text := by
  have htake : text.takeWhile p = text.take (runLength p text) :=
    List.prefix_iff_eq_take.1 (List.takeWhile_prefix p)
  rw [runLength, takeWhile_ofText hp, htake, size]

/-- All characters of a run that passes a narrow test take one byte. -/
theorem not_isWide_of_mem_take (hp : Narrow p) : ∀ c ∈ text.take (runLength p text),
    isWide c = false :=
  fun _ hc => hp.not_isWide (take_runLength p _ hc)

/-- A run that passes a narrow test has the same length in bytes and in characters. Names, numbers
and blanks are such runs. -/
theorem runLength_ofText_of_narrow (hp : Narrow p) (text : List Char) :
    runLength p (ofText text) = runLength p text := by
  rw [runLength_ofText hp.blunt, size_eq_self (runLength_le p text) (not_isWide_of_mem_take hp)]

/-- A test is narrow as soon as it asks for a number below 128. -/
theorem narrow_of_le {p : Char → Bool} (h : ∀ c, p c = true → c.toNat < 128) : Narrow p := by
  intro c hc
  by_contra hp
  have hlt := h c (by simpa using hp)
  simp only [isWide, decide_eq_true_eq] at hc
  omega

/-- The decimal digits take one byte each. -/
theorem narrow_isDigit : Narrow Char.isDigit := by
  refine narrow_of_le fun c hc => ?_
  simp only [Char.isDigit, Bool.and_eq_true, decide_eq_true_eq] at hc
  exact Nat.lt_of_le_of_lt (UInt32.le_iff_toNat_le.1 hc.2) (by decide)

/-- The letters that a name can start with take one byte each. -/
theorem narrow_isAlpha : Narrow Char.isAlpha := by
  refine narrow_of_le fun c hc => ?_
  simp only [Char.isAlpha, Char.isUpper, Char.isLower, Bool.or_eq_true, Bool.and_eq_true,
    decide_eq_true_eq] at hc
  rcases hc with hc | hc <;>
    exact Nat.lt_of_le_of_lt (UInt32.le_iff_toNat_le.1 hc.2) (by decide)

/-- What a name can go on with takes one byte for each character, for names have ASCII letters
only. -/
theorem narrow_isNamePart : Narrow isNamePart := by
  intro c hc
  have hne : c ≠ '_' := by
    rintro rfl
    cases hc
  simp [isNamePart, Char.isAlphanum, narrow_isAlpha c hc, narrow_isDigit c hc, hne]

/-- The digits of every radix take one byte each. -/
theorem narrow_radix (radix : Radix) : Narrow radix.isDigit := by
  refine narrow_of_le fun c hc => ?_
  have hle : ∀ d : Char, c ≤ d → d.toNat < 128 → c.toNat < 128 := fun d hd hlt =>
    Nat.lt_of_le_of_lt (UInt32.le_iff_toNat_le.1 hd) hlt
  cases radix with
  | octal =>
    simp only [Radix.isDigit, Bool.and_eq_true, decide_eq_true_eq] at hc
    exact hle '7' hc.2 (by decide)
  | hexadecimal =>
    simp only [Radix.isDigit, Bool.or_eq_true, Bool.and_eq_true, decide_eq_true_eq] at hc
    rcases hc with (hc | hc) | hc
    · have hnarrow := narrow_isDigit.not_isWide hc
      simpa [isWide] using hnarrow
    · exact hle 'f' hc.2 (by decide)
    · exact hle 'F' hc.2 (by decide)

/-- The fraction of a number is as long in bytes as it is in characters. -/
theorem fractionLength_ofText (text : List Char) :
    fractionLength (ofText text) = fractionLength text := by
  cases text with
  | nil => rfl
  | cons c text =>
    by_cases hc : c = '.'
    · subst hc
      rw [ofText_cons_of_not_isWide rfl]
      cases text with
      | nil => rfl
      | cons d text =>
        obtain ⟨b, bytes, htext, hwide, hnarrow⟩ := exists_ofText_cons d text
        rw [htext]
        cases hd : isWide d with
        | false =>
          obtain ⟨rfl, rfl⟩ := hnarrow hd
          simp only [fractionLength, runLength_ofText_of_narrow narrow_isDigit]
        | true =>
          simp [fractionLength, narrow_isDigit d hd, narrow_isDigit b (hwide.trans hd)]
    · obtain ⟨b, bytes, htext, hwide, hnarrow⟩ := exists_ofText_cons c text
      have hb : b ≠ '.' := by
        rintro rfl
        exact hc (hnarrow hwide.symm).1.symm
      simp [htext, fractionLength, hb, hc]

/-- The exponent of a number is as long in bytes as it is in characters. -/
theorem exponentLength_ofText (text : List Char) :
    exponentLength (ofText text) = exponentLength text := by
  cases text with
  | nil => rfl
  | cons e rest =>
    by_cases he : e = 'e' ∨ e = 'E'
    · have hletter : isWide e = false := by rcases he with rfl | rfl <;> rfl
      have hplus := head?_ofText (show isWide '+' = false from rfl) rest
      have hminus := head?_ofText (show isWide '-' = false from rfl) rest
      rw [ofText_cons_of_not_isWide hletter]
      simp only [exponentLength, hplus, hminus]
      split
      · have hdrop : ∀ d, isWide d = false → rest.head? = some d →
            (ofText rest).drop 1 = ofText (rest.drop 1) := by
          intro d hd hhead
          obtain ⟨behind, rfl⟩ := List.head?_eq_some_iff.1 hhead
          rw [ofText_cons_of_not_isWide hd]
          rfl
        split
        · rename_i hsigned
          simp only [Bool.or_eq_true, decide_eq_true_eq] at hsigned
          rw [hsigned.elim (hdrop '+' rfl) (hdrop '-' rfl),
            runLength_ofText_of_narrow narrow_isDigit]
        · rw [runLength_ofText_of_narrow narrow_isDigit]
      · rfl
    · obtain ⟨b, bytes, htext, hwide, hnarrow⟩ := exists_ofText_cons e rest
      have hb : ¬ (b = 'e' ∨ b = 'E') := by
        intro hb
        have hbyte : isWide b = false := by rcases hb with rfl | rfl <;> rfl
        exact he ((hnarrow (hwide ▸ hbyte)).1 ▸ hb)
      simp [htext, exponentLength, he, hb]

/-- A fraction is a dot and digits, all of which take one byte. -/
theorem not_isWide_of_isFraction (h : IsFraction text) : ∀ c ∈ text, isWide c = false := by
  rcases h with rfl | ⟨d, digits, rfl, hd, hdigits⟩
  · simp
  · simp only [List.forall_mem_cons]
    exact ⟨rfl, narrow_isDigit.not_isWide hd, fun c hc => narrow_isDigit.not_isWide (hdigits c hc)⟩

/-- An exponent is a letter, a sign and digits, all of which take one byte. -/
theorem not_isWide_of_isExponent (h : IsExponent text) : ∀ c ∈ text, isWide c = false := by
  rcases h with rfl | ⟨e, sign, digits, rfl, he, hsign, -, hdigits⟩
  · simp
  · simp only [List.forall_mem_cons, List.forall_mem_append]
    refine ⟨by rcases he with rfl | rfl <;> rfl, ?_,
      fun c hc => narrow_isDigit.not_isWide (hdigits c hc)⟩
    rcases hsign with rfl | rfl | rfl <;> simp [isWide]

/-- A number is read from characters of one byte only. -/
theorem not_isWide_of_number (text : List Char) : (number text).2 ≤ text.length ∧
    ∀ c ∈ text.take (number text).2, isWide c = false := by
  obtain ⟨hle, whole, fraction, exponent, suffix, htake, hwhole, hfraction, hexponent, hsuffix, -⟩ :=
    parts_of_number (show number text = ((number text).1, (number text).2) from rfl)
  refine ⟨hle, ?_⟩
  rw [htake]
  simp only [List.forall_mem_append]
  refine ⟨fun c hc => narrow_isDigit.not_isWide (hwhole c hc), not_isWide_of_isFraction hfraction,
    not_isWide_of_isExponent hexponent, ?_⟩
  rcases hsuffix with rfl | rfl | rfl <;> simp [isWide]

/-- A decimal number is found in the bytes as it is in the text, with the same kind and the same
length. -/
theorem number_ofText (text : List Char) : number (ofText text) = number text := by
  obtain ⟨w, hw⟩ : ∃ w, w = runLength Char.isDigit text := ⟨_, rfl⟩
  obtain ⟨f, hf⟩ : ∃ f, f = fractionLength (text.drop w) := ⟨_, rfl⟩
  obtain ⟨x, hx⟩ : ∃ x, x = exponentLength (text.drop (w + f)) := ⟨_, rfl⟩
  have hwhole : ∀ c ∈ text.take w, isWide c = false := hw ▸ not_isWide_of_mem_take narrow_isDigit
  have hfraction : ∀ c ∈ text.take (w + f), isWide c = false := by
    rw [List.take_add, List.forall_mem_append]
    exact ⟨hwhole, not_isWide_of_isFraction (hf ▸ (take_fractionLength _).1)⟩
  have hexponent : ∀ c ∈ text.take (w + f + x), isWide c = false := by
    rw [List.take_add, List.forall_mem_append]
    exact ⟨hfraction, not_isWide_of_isExponent (hx ▸ (take_exponentLength _).1)⟩
  simp only [number, runLength_ofText_of_narrow narrow_isDigit, ← hw, drop_ofText hwhole,
    fractionLength_ofText, ← hf, drop_ofText hfraction, exponentLength_ofText, ← hx,
    drop_ofText hexponent]
  cases text.drop (w + f + x) with
  | nil => rfl
  | cons c rest =>
    obtain ⟨b, bytes, htext, hwide, hnarrow⟩ := exists_ofText_cons c rest
    rw [htext]
    cases hc : isWide c with
    | false =>
      obtain ⟨rfl, rfl⟩ := hnarrow hc
      by_cases hsingle : b = 'f'
      · subst hsingle
        rfl
      · by_cases hdouble : b = 'i'
        · subst hdouble
          rfl
        · simp [hsingle, hdouble]
    | true =>
      have hne : ∀ d, isWide d = true → d ≠ 'f' ∧ d ≠ 'i' := by
        refine fun d hd => ⟨?_, ?_⟩ <;> rintro rfl <;> cases hd
      simp [hne c hc, hne b (hwide.trans hc)]

/-- A number with a radix has characters of one byte only. -/
theorem not_isWide_of_radixNumber (h : radixNumber text = .ok n) :
    ∀ c ∈ text.take n, isWide c = false := by
  obtain ⟨-, radix, digits, htake, -, hdigits⟩ := exists_of_radixNumber h
  rw [htake, List.forall_mem_append]
  refine ⟨?_, fun c hc => (narrow_radix radix).not_isWide (hdigits c hc)⟩
  cases radix <;> simp [radixLead, isWide]

/-- A number with a radix is found, or refused, in the bytes as it is in the text. -/
theorem radixNumber_ofText (text : List Char) : radixNumber (ofText text) = radixNumber text := by
  have hoctal := head?_ofText (show isWide 'o' = false from rfl) text
  obtain ⟨lead, hlead⟩ : ∃ lead, lead = if text.head? = some 'o' then 1 else 0 := ⟨_, rfl⟩
  have hnarrow : ∀ c ∈ text.take lead, isWide c = false := by
    rw [hlead]
    split
    · rename_i hhead
      obtain ⟨behind, rfl⟩ := List.head?_eq_some_iff.1 hhead
      simp [isWide]
    · simp
  obtain ⟨radix, hradix⟩ : ∃ radix, radix =
      if text.head? = some 'o' then Radix.octal else .hexadecimal := ⟨_, rfl⟩
  obtain ⟨digits, hdigits⟩ : ∃ digits, digits = runLength radix.isDigit (text.drop lead) :=
    ⟨_, rfl⟩
  have htaken : ∀ c ∈ text.take (lead + digits), isWide c = false := by
    rw [List.take_add, List.forall_mem_append]
    exact ⟨hnarrow, hdigits ▸ not_isWide_of_mem_take (narrow_radix radix)⟩
  simp only [radixNumber, hoctal, ← hlead, ← hradix, drop_ofText hnarrow,
    runLength_ofText_of_narrow (narrow_radix radix), ← hdigits, drop_ofText htaken]
  cases text.drop (lead + digits) with
  | nil => rfl
  | cons c rest =>
    obtain ⟨b, bytes, htext, hwide, hsame⟩ := exists_ofText_cons c rest
    rw [htext]
    cases hc : isWide c with
    | false => rw [(hsame hc).1]
    | true => simp [narrow_isNamePart c hc, narrow_isNamePart b (hwide.trans hc)]

/-- Wide characters do not end a comment. -/
theorem commentLength_append {bytes : List Char} (h : ∀ b ∈ bytes, isWide b = true)
    (text : List Char) : commentLength (bytes ++ text) =
      (commentLength text).map (· + bytes.length) := by
  induction bytes with
  | nil => simp
  | cons b bytes ih =>
    rw [List.forall_mem_cons] at h
    have hstar : b ≠ '*' := by
      rintro rfl
      cases h.1
    rw [List.cons_append, commentLength, ih h.2, Option.map_map]
    · rfl
    · rintro _ rfl
      exact absurd rfl hstar

/-- A comment ends behind the same character, whether its characters or its bytes are read. -/
theorem commentLength_ofText (text : List Char) :
    commentLength (ofText text) = (commentLength text).map (size · text) := by
  induction text with
  | nil => rfl
  | cons c text ih =>
    by_cases hend : c = '*' ∧ text.head? = some '/'
    · obtain ⟨rfl, hhead⟩ := hend
      obtain ⟨behind, rfl⟩ := List.head?_eq_some_iff.1 hhead
      rw [ofText_cons_of_not_isWide rfl, ofText_cons_of_not_isWide rfl]
      rfl
    · have hgoes : ∀ text' : List Char, ¬ (c = '*' ∧ text'.head? = some '/') →
          commentLength (c :: text') = (commentLength text').map (· + 1) := by
        intro text' hnot
        rw [commentLength]
        rintro others rfl rfl
        exact hnot ⟨rfl, rfl⟩
      rw [hgoes text hend, Option.map_map, ofText_cons]
      have hbytes : commentLength (ofChar c ++ ofText text) =
          (commentLength (ofText text)).map (· + (ofChar c).length) := by
        cases hc : isWide c with
        | false =>
          rw [ofChar_of_not_isWide hc, List.singleton_append]
          exact hgoes _ (by rwa [head?_ofText rfl])
        | true => exact commentLength_append (isWide_of_mem_ofChar hc) _
      rw [hbytes, ih, Option.map_map]
      congr 1
      funext n
      exact (size_succ n c text).symm

/-- Wide characters do not end a quoted text, and none is taken along by another one. -/
theorem quotedLength_append {quote : Char} {bytes : List Char} (hquote : isWide quote = false)
    (h : ∀ b ∈ bytes, isWide b = true) (text : List Char) :
    quotedLength quote (bytes ++ text) = (quotedLength quote text).map (· + bytes.length) := by
  induction bytes with
  | nil => simp
  | cons b bytes ih =>
    rw [List.forall_mem_cons] at h
    have hslash : b ≠ '\\' := by
      rintro rfl
      cases h.1
    have hne : b ≠ quote := by
      rintro rfl
      rw [hquote] at h
      cases h.1
    rw [List.cons_append, quotedLength, if_neg hne, ih h.2, Option.map_map]
    · rfl
    · exact hslash

/-- A quoted text ends behind the same character, whether its characters or its bytes are read. A
backslash takes one byte along; the other bytes of that character end nothing either. -/
theorem quotedLength_ofText {quote : Char} (hquote : isWide quote = false) (text : List Char) :
    quotedLength quote (ofText text) = (quotedLength quote text).map (size · text) := by
  fun_induction quotedLength quote text with
  | case1 => rfl
  | case2 => rfl
  | case3 c text ih =>
    obtain ⟨lead, others, hchar, hothers⟩ : ∃ lead others, ofChar c = lead :: others ∧
        ∀ b ∈ others, isWide b = true := by
      cases hc : isWide c with
      | false => exact ⟨c, [], ofChar_of_not_isWide hc, by simp⟩
      | true =>
        obtain ⟨lead, others, hchar, -⟩ := ofChar_of_isWide hc
        exact ⟨lead, others, hchar, fun b hb => isWide_of_mem_ofChar hc b (by simp [hchar, hb])⟩
    rw [ofText_cons_of_not_isWide rfl, ofText_cons, hchar, List.cons_append, quotedLength,
      quotedLength_append hquote hothers, ih, Option.map_map, Option.map_map, Option.map_map]
    congr 1
    funext n
    simp [size_succ, hchar, ofChar_of_not_isWide, isWide, Nat.add_assoc]
  | case4 text hslash =>
    rw [ofText_cons_of_not_isWide hquote, quotedLength, if_pos rfl]
    · simp [size, ofText_cons_of_not_isWide hquote]
    · exact hslash
  | case5 c text hslash hne ih =>
    have hbytes : quotedLength quote (ofChar c ++ ofText text) =
        (quotedLength quote (ofText text)).map (· + (ofChar c).length) := by
      cases hc : isWide c with
      | false =>
        rw [ofChar_of_not_isWide hc, List.singleton_append, quotedLength, if_neg hne]
        · rfl
        · exact hslash
      | true => exact quotedLength_append hquote (isWide_of_mem_ofChar hc) _
    rw [ofText_cons, hbytes, ih, Option.map_map, Option.map_map]
    congr 1
    funext n
    exact (size_succ n c text).symm

/-- The two characters of a mark such as `==` take one byte each. -/
theorem not_isWide_of_pairKind {d : Char} {kind : Kind} (h : pairKind c d = some kind) :
    isWide c = false ∧ isWide d = false := by
  unfold pairKind at h
  split at h <;> cases h <;> exact ⟨rfl, rfl⟩

/-- The character of a mark takes one byte. -/
theorem not_isWide_of_markKind {kind : Kind} (h : markKind c = some kind) : isWide c = false := by
  unfold markKind at h
  split at h <;> cases h <;> rfl

/-- Whether two characters make up a mark is seen from the bytes as well. -/
theorem pair_ofText (c : Char) (rest : List Char) :
    (ofText rest).head?.bind (pairKind c) = rest.head?.bind (pairKind c) := by
  cases rest with
  | nil => rfl
  | cons d rest =>
    obtain ⟨b, bytes, htext, hwide, hnarrow⟩ := exists_ofText_cons d rest
    rw [htext, List.head?_cons, List.head?_cons, Option.bind_some, Option.bind_some]
    cases hd : isWide d with
    | false => rw [(hnarrow hd).1]
    | true =>
      have hnone : ∀ d, isWide d = true → pairKind c d = none := by
        intro d hd
        by_contra hsome
        obtain ⟨kind, hkind⟩ := Option.ne_none_iff_exists'.1 hsome
        rw [(not_isWide_of_pairKind hkind).2] at hd
        cases hd
      rw [hnone d hd, hnone b (hwide.trans hd)]

/-- A mark is found in the bytes as it is in the text. Only what an unknown character takes is
counted in bytes. -/
theorem mark_ofText (c : Char) (rest : List Char) :
    mark c (ofText rest) = (mark c rest).map fun (kind, more) => (kind, size more rest) := by
  unfold mark
  rw [pair_ofText]
  split
  · rename_i kind hkind
    obtain ⟨d, hd, hpair⟩ := Option.bind_eq_some_iff.1 hkind
    obtain ⟨others, rfl⟩ := List.head?_eq_some_iff.1 hd
    simp [Except.map, size, ofText_cons_of_not_isWide (not_isWide_of_pairKind hpair).2]
  · split <;> simp [Except.map, size]

/-- A quoted text is found in the bytes as it is in the text, with its length in bytes. An escape
skips one byte only, but none of the others of that character can end the text. -/
theorem quoted_ofText {quote : Char} (hquote : isWide quote = false) (kind : Kind)
    (rest : List Char) :
    quoted quote kind (ofText rest) =
      ((quoted quote kind rest).1, size (quoted quote kind rest).2 rest) := by
  unfold quoted
  rw [quotedLength_ofText hquote]
  cases quotedLength quote rest with
  | none => simp [size]
  | some length => rfl

/-- A comment between marks ends in the bytes where it ends in the text. -/
theorem blockComment_ofText (rest : List Char) :
    blockComment (ofText ('*' :: rest)) =
      ((blockComment ('*' :: rest)).1, size (blockComment ('*' :: rest)).2 ('*' :: rest)) := by
  have hstar : ofChar '*' = ['*'] := ofChar_of_not_isWide rfl
  rw [ofText_cons_of_not_isWide rfl]
  unfold blockComment
  rw [List.drop_succ_cons, List.drop_zero, List.drop_succ_cons, List.drop_zero,
    commentLength_ofText]
  cases commentLength rest with
  | none => simp [size, ofText_cons, hstar]
  | some length => simp [size_succ, hstar]

/-- A token that starts with a character of one byte is the same in both readings; its length counts
bytes in one and characters in the other. Only characters of one byte decide how far a token
reaches. -/
theorem front_ofText (hc : isWide c = false) (rest : List Char) :
    front c (ofText rest) = (front c rest).map fun (kind, more) => (kind, size more rest) := by
  have hslash := head?_ofText (show isWide '/' = false from rfl) rest
  have hstar := head?_ofText (show isWide '*' = false from rfl) rest
  have hdigit : (ofText rest).head?.map Char.isDigit = rest.head?.map Char.isDigit := by
    cases rest with
    | nil => rfl
    | cons d rest =>
      obtain ⟨b, bytes, htext, hwide, hnarrow⟩ := exists_ofText_cons d rest
      rw [htext, List.head?_cons, List.head?_cons, Option.map_some, Option.map_some]
      cases hd : isWide d with
      | false => rw [(hnarrow hd).1]
      | true => rw [narrow_isDigit d hd, narrow_isDigit b (hwide.trans hd)]
  have hnumber : number (c :: ofText rest) = number (c :: rest) := by
    rw [← ofText_cons_of_not_isWide hc, number_ofText]
  -- From here on the branches of the lexer are taken one by one; what each of them looks at is the
  -- same in both readings.
  unfold front
  simp only [hslash, hstar, hdigit, hnumber, radixNumber_ofText,
    runLength_ofText_of_narrow narrow_isNamePart]
  split
  · have htaken : ∀ c ∈ rest.take (runLength isNamePart rest), isWide c = false :=
      not_isWide_of_mem_take narrow_isNamePart
    rw [take_ofText htaken]
    simp only [Except.map, size_eq_self (runLength_le isNamePart rest) htaken]
  split
  · obtain ⟨hle, htaken⟩ := not_isWide_of_number (c :: rest)
    simp only [Except.map]
    generalize (number (c :: rest)).2 = length at hle htaken
    cases length with
    | zero => rfl
    | succ length =>
      rw [List.take_succ_cons, List.forall_mem_cons] at htaken
      rw [Nat.add_sub_cancel, size_eq_self (Nat.le_of_succ_le_succ hle) htaken.2]
  split
  · cases hradix : radixNumber rest with
    | error e => rfl
    | ok length =>
      have hsize := size_eq_self (exists_of_radixNumber hradix).1 (not_isWide_of_radixNumber hradix)
      simp only [Except.map, hsize]
  split
  · rw [runLength_ofText fun c d hc hd => ?_]
    · rfl
    · have hfeed : ∀ c, isWide c = true → c ≠ '\n' := by
        rintro _ hwide rfl
        cases hwide
      simp [hfeed c hc, hfeed d hd]
  split
  · rename_i hopens
    simp only [Bool.and_eq_true, decide_eq_true_eq] at hopens
    obtain ⟨behind, rfl⟩ := List.head?_eq_some_iff.1 hopens.2
    rw [blockComment_ofText]
    rfl
  split
  · rw [quoted_ofText rfl]
    rfl
  split
  · rw [quoted_ofText rfl]
    rfl
  · exact mark_ofText c rest

/-- No token starts with a wide character, nor with a byte of one. -/
theorem front_of_isWide (hc : isWide c = true) (rest : List Char) :
    front c rest = .error (.unknownCharacter c, 1) := by
  have hne : ∀ d, isWide d = false → c ≠ d := by
    rintro d hd rfl
    rw [hd] at hc
    cases hc
  have hpair : rest.head?.bind (pairKind c) = none := by
    rw [Option.bind_eq_none_iff]
    intro d _
    by_contra hsome
    obtain ⟨kind, hkind⟩ := Option.ne_none_iff_exists'.1 hsome
    exact hne c (not_isWide_of_pairKind hkind).1 rfl
  have hmark : markKind c = none := by
    by_contra hsome
    obtain ⟨kind, hkind⟩ := Option.ne_none_iff_exists'.1 hsome
    exact hne c (not_isWide_of_markKind hkind) rfl
  simp only [front, isNameStart, narrow_isAlpha c hc, narrow_isDigit c hc, hne '_' rfl, hne '.' rfl,
    hne '#' rfl, hne '/' rfl, hne '"' rfl, hne '\'' rfl, mark, hpair, hmark]
  rfl

end Bytes

end Sprout
