import Mathlib.Data.Nat.Digits.Defs
import Sprout.Proofs.Lexing.Lexemes
import Sprout.Proofs.Text.Escapes
import Sprout.Typing

namespace Sprout

namespace Token

/-- The base of an integer literal and its digits, the highest first. -/
def places : List Char → Nat × List Char
  | '#' :: 'o' :: digits => (8, digits)
  | '#' :: digits => (16, digits)
  | digits => (10, digits)

/-- The value of a digit: its place among all digits, in either case. -/
def digit (c : Char) : Nat :=
  "0123456789abcdef".toList.idxOf c.toLower

/-- The number that an integer literal denotes: its digits count as multiples of powers of its base. -/
def numeral (t : Token) : Nat :=
  let (base, digits) := places t.lexeme.toList
  Nat.ofDigits base (digits.map digit).reverse

/-- Whether a character is a digit of a base. -/
def IsDigit (base : Nat) (c : Char) : Prop :=
  Number.digitValue? c = some (digit c) ∧ digit c < base

section Digits

variable {c : Char} {base n : Nat} {digits more : List Char}

/-- A digit has the value of its place among all digits. -/
theorem IsDigit.of_value (hfirst : c.toNat < 128) (h : Number.digitValue? c = some n)
    (hn : n < base) : IsDigit base c := by
  have hall : ∀ k < 128, ∀ n ∈ Number.digitValue? (Char.ofNat k), digit (Char.ofNat k) = n := by
    decide
  have hdigit := hall c.toNat hfirst
  rw [Char.ofNat_toNat] at hdigit
  obtain rfl := hdigit n h
  exact ⟨h, hn⟩

/-- The digits of a radix are digits of its base. -/
theorem IsDigit.of_radix {radix : Radix} (h : radix.isDigit c = true) :
    IsDigit (Target.base radix) c := by
  obtain ⟨n, hn, hvalue⟩ := Target.exists_digitValue h
  have hfirst := Target.toNat_of_isDigit h
  exact .of_value (by omega) hvalue hn

/-- The decimal digits are digits of base ten. -/
theorem IsDigit.of_isDigit (h : c.isDigit = true) : IsDigit 10 c := by
  have hbounds := Target.isDigit_iff_toNat.1 h
  have hvalue : Number.digitValue? c = some (c.toNat - '0'.toNat) := if_pos h
  exact .of_value (by omega) hvalue (show c.toNat - 48 < 10 by omega)

/-- A number without a fraction, an exponent and a suffix is a row of decimal digits. -/
theorem isDigit_of_number {text : List Char} {length : Nat} (h : number text = (.integer, length)) :
    ∀ d ∈ text.take length, d.isDigit = true := by
  obtain ⟨-, whole, fraction, exponent, suffix, htake, hwhole, -, -, hsuffix, hkind⟩ :=
    parts_of_number h
  -- Every other part would have made it a number of another kind.
  have hbare : suffix = [] ∧ fraction = [] ∧ exponent = [] := by
    unfold numeralKind at hkind
    repeat' split at hkind
    all_goals try cases hkind
    rename_i hsingle hdouble hparts
    exact ⟨hsuffix.resolve_right fun hletter => hletter.elim hsingle hdouble, hparts⟩
  obtain ⟨rfl, rfl, rfl⟩ := hbare
  rw [htake]
  simpa using hwhole

/-- What the lexer takes for an integer is a row of decimal digits, or a `#` with a row of digits of its
base. -/
theorem digits_of_front (h : front c more = .ok (.integer, more.length)) :
    (∀ d ∈ c :: more, d.isDigit = true) ∨
      c = '#' ∧ ∃ radix digits, more = radixLead radix ++ digits ∧ digits ≠ [] ∧
        ∀ d ∈ digits, Radix.isDigit radix d = true := by
  unfold front at h
  -- A word, a comment, a quoted text and a mark have kinds of their own.
  split at h
  · have hword := isWord_wordKind (String.ofList (c :: more.take (runLength isNamePart more)))
    rw [(Prod.mk.inj (Except.ok.inj h)).1] at hword
    cases hword
  split at h
  · rename_i hnumeric
    simp only [Bool.or_eq_true, Bool.and_eq_true, decide_eq_true_eq] at hnumeric
    cases hnumber : number (c :: more) with
    | mk kind length =>
      rw [hnumber] at h
      obtain ⟨rfl, hlength⟩ := Prod.mk.inj (Except.ok.inj h)
      obtain ⟨hdigit, hpoint⟩ := number_pos hnumber
      have hpos : 1 ≤ length :=
        hnumeric.elim hdigit fun hboth => (hpoint hboth.1 hboth.2).trans' (by decide)
      have hdigits := isDigit_of_number hnumber
      rw [List.take_of_length_le (by simp only [List.length_cons]; omega)] at hdigits
      exact .inl hdigits
  split at h
  · rename_i hhash
    refine .inr ⟨hhash, ?_⟩
    cases hradix : radixNumber more with
    | error defect => rw [hradix] at h; cases h
    | ok length =>
      rw [hradix] at h
      cases h
      obtain ⟨-, radix, digits, htake, hne, hdigits⟩ := exists_of_radixNumber hradix
      rw [List.take_length] at htake
      exact ⟨radix, digits, htake, hne, hdigits⟩
  split at h
  · cases h
  split at h
  · simp only [blockComment] at h
    split at h <;> cases h
  split at h
  · simp only [quoted] at h
    split at h <;> cases h
  split at h
  · simp only [quoted] at h
    split at h <;> cases h
  · exact absurd (isMark_of_mark h) (by decide)

/-- The digits of an integer are digits of its base, and there is at least one. In base ten they are
the whole lexeme, in the others what stands behind the mark and its letter. -/
theorem Standalone.isDigit_places {t : Token} (h : t.Standalone) (hkind : t.kind = .integer) :
    (places t.lexeme.toList).2 ≠ [] ∧
      ∀ d ∈ (places t.lexeme.toList).2, IsDigit (places t.lexeme.toList).1 d := by
  obtain ⟨c, more, hlexeme, -, hfront⟩ := h
  have hinteger := hfront [] .nil
  rw [List.append_nil, hkind] at hinteger
  rw [hlexeme, String.toList_ofList]
  rcases digits_of_front hinteger with hdecimal | ⟨rfl, radix, digits, rfl, hne, hdigits⟩
  · have hhash : c ≠ '#' := by
      rintro rfl
      exact absurd (hdecimal '#' (List.mem_cons_self ..)) (by decide)
    have hplaces : places (c :: more) = (10, c :: more) := by
      simp [places, hhash]
    rw [hplaces]
    exact ⟨by simp, fun d hd => .of_isDigit (hdecimal d hd)⟩
  · have hplaces : places ('#' :: (radixLead radix ++ digits)) = (Target.base radix, digits) := by
      cases radix with
      | octal => rfl
      | hexadecimal =>
        obtain ⟨d, others, rfl⟩ := List.exists_cons_of_ne_nil hne
        have ho : d ≠ 'o' := by
          rintro rfl
          exact absurd (hdigits 'o' (List.mem_cons_self ..)) (by decide)
        simp [radixLead, places, ho, Target.base]
    rw [hplaces]
    exact ⟨hne, fun d hd => .of_radix (hdigits d hd)⟩

end Digits

end Token

namespace Number

open Token

variable {base : Nat} {digits : List Char}

/-- Reading digits one by one behind others adds up what they denote. -/
theorem foldDigits_eq_ofDigits (h : ∀ d ∈ digits, IsDigit base d) (value : Nat) :
    foldDigits base value digits =
      some (Nat.ofDigits base ((digits.map digit).reverse ++ [value])) := by
  induction digits generalizing value with
  | nil => simp [foldDigits]
  | cons d digits ih =>
    rw [List.forall_mem_cons] at h
    obtain ⟨⟨hvalue, hlt⟩, hdigits⟩ := h
    have hfirst : Nat.ofDigits base [base * value + digit d] = Nat.ofDigits base [digit d, value] := by
      simp [Nat.ofDigits_cons, Nat.add_comm]
    rw [foldDigits, hvalue]
    simp only [if_pos hlt]
    rw [ih hdigits, Nat.ofDigits_append, hfirst, ← Nat.ofDigits_append]
    simp

/-- The largest type of whole numbers holds what has at most 64 bits. -/
theorem holdsInteger_u64_iff {n : Nat} : Primitive.u64.holdsInteger n = true ↔ n < 2 ^ 64 := by
  simp [Primitive.holdsInteger, Primitive.integerRange, Primitive.isInteger, Primitive.isSigned,
    Primitive.bits]
  omega

/-- Digits are read as what they denote, if that has at most 64 bits. -/
theorem readNat?_eq (hne : digits ≠ []) (h : ∀ d ∈ digits, IsDigit base d) :
    readNat? base digits =
      if Nat.ofDigits base (digits.map digit).reverse < 2 ^ 64 then
        some (Nat.ofDigits base (digits.map digit).reverse)
      else none := by
  have hplus : digits.head? ≠ some '+' := by
    intro hhead
    obtain ⟨others, rfl⟩ := List.head?_eq_some_iff.1 hhead
    have hvalue := (h '+' (List.mem_cons_self ..)).1
    cases hvalue
  have hread : foldDigits base 0 digits = some (Nat.ofDigits base (digits.map digit).reverse) := by
    rw [foldDigits_eq_ofDigits h, Nat.ofDigits_append_zero]
  simp only [readNat?, if_neg hplus, if_neg hne, hread, Option.filter_some, holdsInteger_u64_iff]

/-- The type of an integer literal of a value. -/
def literalType (n : Nat) : Primitive :=
  if n < 2 ^ 31 then .i32 else if n < 2 ^ 63 then .i64 else .u64

/-- A number is of the type that its size asks for. -/
theorem ofNat_eq (n : Nat) : ofNat n = .integer (literalType n) n := by
  have hnarrow : Primitive.i32.holdsInteger n = true ↔ n < 2 ^ 31 := by
    simp [Primitive.holdsInteger, Primitive.integerRange, Primitive.isInteger, Primitive.isSigned,
      Primitive.bits]
    omega
  have hwide : Primitive.i64.holdsInteger n = true ↔ n < 2 ^ 63 := by
    simp [Primitive.holdsInteger, Primitive.integerRange, Primitive.isInteger, Primitive.isSigned,
      Primitive.bits]
    omega
  simp only [ofNat, literalType, hnarrow, hwide]
  split
  · rfl
  · split <;> rfl

/-- A literal stands for the number that its digits make in its base, or for zero if that has more
than 64 bits. -/
theorem integerValue_places (lexeme : List Char) :
    integerValue lexeme = (readNat? (places lexeme).1 (places lexeme).2).getD 0 := by
  fun_cases places lexeme <;> simp [integerValue, *]

/-- An integer is read as what it denotes, or as zero if that has more than 64 bits. -/
theorem integerValue_eq {t : Token} (h : t.Standalone) (hkind : t.kind = .integer) :
    integerValue t.lexeme.toList = if t.numeral < 2 ^ 64 then t.numeral else 0 := by
  obtain ⟨hne, hdigits⟩ := h.isDigit_places hkind
  rw [integerValue_places, readNat?_eq hne hdigits]
  change (if t.numeral < 2 ^ 64 then some t.numeral else none).getD 0 = _
  split <;> rfl

end Number

/-- Every integer literal of a source has a value: the number that its digits denote, with the narrowest
type for it, just if that number has at most 64 bits. Every other number becomes zero. -/
theorem Source.integer_denotes {source : Source} {ts : List Token} {t : Token}
    (h : source.tokens = .ok ts) (ht : t ∈ ts) (hkind : t.kind = .integer) (scopes : Scopes)
    (position : Position) :
    ∃ typed, ((Expr.number (Number.ofLexeme t.kind t.lexeme) position).value scopes).outcome =
        .ok typed ∧
      if t.numeral < 2 ^ 64 then
        typed.constant = some (.int t.numeral) ∧
          typed.type = .primitive (Number.literalType t.numeral)
      else typed.constant = some (.int 0) ∧ typed.type = .primitive .i32 := by
  have hstandalone := Token.standalone_of_mem_scan h t ht (by simp [hkind]) (by simp [hkind])
    (by simp [hkind])
  have hnumber : Number.ofLexeme t.kind t.lexeme =
      .integer (Number.literalType (if t.numeral < 2 ^ 64 then t.numeral else 0))
        (if t.numeral < 2 ^ 64 then t.numeral else 0 : Nat) := by
    rw [hkind, Number.ofLexeme, Number.integerValue_eq hstandalone hkind, Number.ofNat_eq]
    all_goals simp
  rw [hnumber]
  refine ⟨_, rfl, ?_⟩
  split
  · exact ⟨rfl, rfl⟩
  · exact ⟨rfl, rfl⟩

/-- The greatest number of 64 bits, and the number after it. -/
private def digitRows : Source :=
  ⟨"digits", "#00fFfFfFfFfFfFfFfF 18446744073709551616"⟩

private def greatestRow : Token :=
  ⟨.integer, "#00fFfFfFfFfFfFfFfF", ⟨1, 1⟩⟩

private def nextRow : Token :=
  ⟨.integer, "18446744073709551616", ⟨1, 21⟩⟩

/-- The two rows of digits are one token each. -/
private theorem tokens_digitRows :
    digitRows.tokens = .ok [greatestRow, nextRow, ⟨.eof, "", ⟨1, 41⟩⟩] :=
  eq_ok_of_toOption (by decide +kernel)

/-- The greatest number of 64 bits is known as it was written. The next one is known as zero. -/
theorem greatestRow_denotes :
    ∃ ts typed, digitRows.tokens = .ok ts ∧ greatestRow ∈ ts ∧
      greatestRow.numeral = 18446744073709551615 ∧
      ((Expr.number (Number.ofLexeme .integer greatestRow.lexeme) ⟨1, 1⟩).value {}).outcome =
        .ok typed ∧
      typed.constant = some (.int 18446744073709551615) ∧ typed.type = .primitive .u64 := by
  have hnumeral : greatestRow.numeral = 18446744073709551615 := by decide +kernel
  obtain ⟨typed, htyped, hdenotes⟩ := Source.integer_denotes tokens_digitRows
    (t := greatestRow) (List.mem_cons_self ..) rfl {} ⟨1, 1⟩
  rw [hnumeral, if_pos (by decide)] at hdenotes
  exact ⟨_, typed, tokens_digitRows, List.mem_cons_self .., hnumeral, htyped, hdenotes⟩

/-- The number after the greatest of 64 bits is read as zero, and nothing is refused. -/
theorem nextRow_misread :
    ∃ ts typed, digitRows.tokens = .ok ts ∧ nextRow ∈ ts ∧
      nextRow.numeral = 18446744073709551616 ∧
      ((Expr.number (Number.ofLexeme .integer nextRow.lexeme) ⟨1, 21⟩).value {}).outcome =
        .ok typed ∧
      typed.constant = some (.int 0) ∧ typed.type = .primitive .i32 :=
  ⟨_, _, tokens_digitRows, by simp, by decide +kernel, rfl, by decide +kernel, by decide +kernel⟩

end Sprout
