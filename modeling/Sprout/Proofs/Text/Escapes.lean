import Mathlib.Data.List.Chain
import Sprout.Proofs.Outcome
import Sprout.Token.Lexer

namespace Sprout

namespace Target

/-- The base of a radix. -/
def base : Radix → Nat
  | .octal => 8
  | .hexadecimal => 16

/-- The character that a backslash stands for together with the letter or sign behind it. The other
escapes are read greedily: an octal one takes up to three digits and a hexadecimal one all the
digits that follow. -/
def simpleEscape? : Char → Option Char
  | 'n' => some '\n'
  | 't' => some '\t'
  | 'r' => some '\r'
  | '\\' => some '\\'
  | '"' => some '"'
  | _ => none

/-- The digits at the front of a text that a numeric escape takes, if it may take so many. All that
come are taken if there is no `limit`. -/
def digitsOf (radix : Radix) (limit : Option Nat) (text : List Char) : List Char :=
  let digits := text.takeWhile radix.isDigit
  limit.elim digits digits.take

/-- What the digits of a numeric escape denote, with the length of the escape in front of which
`lead` characters stand; nothing if there are no digits. -/
def numericEscape? (radix : Radix) (lead : Nat) (digits : List Char) : Option (Nat × Nat) :=
  if digits = [] then none
  else (Number.foldDigits (base radix) 0 digits).map (·, lead + digits.length)

/-- The number of the character that an escape stands for, and the length of the escape, read behind
its backslash: a simple escape, or up to three octal digits, or an `x` with all the hexadecimal digits
that follow. -/
def escapeAt : List Char → Option (Nat × Nat)
  | [] => none
  | c :: rest =>
    match simpleEscape? c with
    | some known => some (known.toNat, 1)
    | none =>
      if c = 'x' then numericEscape? .hexadecimal 1 (digitsOf .hexadecimal none rest)
      else numericEscape? .octal 0 (digitsOf .octal (some 3) (c :: rest))

/-- Reads a string literal behind its opening quote: the numbers of its characters, and the text behind
its closing quote. Nothing if the literal has no end on its line, or an escape that is none. -/
def readLiteral : List Char → Option (List Nat × List Char)
  | [] => none
  | c :: rest =>
    if c = '"' then some ([], rest)
    else if c = '\n' then none
    else if c = '\\' then
      match escapeAt rest with
      | none => none
      | some (code, length) =>
        (readLiteral (rest.drop length)).map fun (codes, behind) => (code :: codes, behind)
    else (readLiteral rest).map fun (codes, behind) => (c.toNat :: codes, behind)
termination_by text => text.length
decreasing_by
  · rw [List.length_drop, List.length_cons]
    omega
  · simp

/-- The radix in which a character of a string is written by its number; nothing if it is written
otherwise. -/
def numberedIn? (c : Char) : Option Radix :=
  if c = '\x00' then some .octal
  else if c = '\n' || c = '\t' || c = '\r' then none
  else if c.toNat < 32 || c.toNat = 127 then some .hexadecimal
  else none

/-- Whether the escape of `c`, if it is written by its number, ends in front of `d`. -/
def KeepsApart (c d : Char) : Prop :=
  ∀ radix, numberedIn? c = some radix → radix.isDigit d = false

/-- The characters of a text as they stand between the quotes of a literal. -/
def written (text : List Char) : List Char :=
  text.flatMap fun c => (escape '"' c).toList

/-- A string is written as a call around its characters, each escaped as it has to be. -/
theorem stringLiteral_eq (text : List Char) :
    stringLiteral text = "std::string(\"" ++ String.ofList (written text) ++ "\")" := by
  have hbody : String.join (text.map (escape '"')) = String.ofList (written text) := by
    apply String.toList_injective
    rw [String.toList_ofList]
    induction text with
    | nil => rfl
    | cons c text ih =>
      rw [List.map_cons, String.join_cons, String.toList_append, ih]
      rfl
  rw [stringLiteral, hbody]

section Digits

variable {radix : Radix} {c d : Char} {digits : List Char}

/-- Characters are ordered by their numbers. -/
theorem le_iff_toNat_le : c ≤ d ↔ c.toNat ≤ d.toNat := by
  rw [Char.le_def, UInt32.le_iff_toNat_le]
  rfl

/-- The decimal digits are ten characters in a row. -/
theorem isDigit_iff_toNat : d.isDigit = true ↔ 48 ≤ d.toNat ∧ d.toNat ≤ 57 := by
  simp only [Char.isDigit, Bool.and_eq_true, decide_eq_true_eq, ge_iff_le, UInt32.le_iff_toNat_le]
  rfl

/-- The digits of any radix are among the decimal ones and the first six letters of both cases. -/
theorem toNat_of_isDigit (h : radix.isDigit d = true) :
    48 ≤ d.toNat ∧ d.toNat ≤ 57 ∨ 97 ≤ d.toNat ∧ d.toNat ≤ 102 ∨ 65 ≤ d.toNat ∧ d.toNat ≤ 70 := by
  cases radix with
  | octal =>
    simp only [Radix.isDigit, Bool.and_eq_true, decide_eq_true_eq, le_iff_toNat_le] at h
    obtain ⟨hlow, hhigh⟩ : 48 ≤ d.toNat ∧ d.toNat ≤ 55 := h
    omega
  | hexadecimal =>
    simp only [Radix.isDigit, Bool.or_eq_true, Bool.and_eq_true, decide_eq_true_eq, le_iff_toNat_le,
      isDigit_iff_toNat, or_assoc] at h
    exact h

/-- A digit has a value below the base, for both bases that an escape can have. -/
theorem exists_digitValue (h : radix.isDigit d = true) :
    ∃ n < base radix, Number.digitValue? d = some n := by
  unfold Number.digitValue?
  cases radix with
  | octal =>
    simp only [Radix.isDigit, Bool.and_eq_true, decide_eq_true_eq, le_iff_toNat_le] at h
    obtain ⟨hlow, hhigh⟩ : 48 ≤ d.toNat ∧ d.toNat ≤ 55 := h
    rw [if_pos (isDigit_iff_toNat.2 ⟨hlow, by omega⟩)]
    exact ⟨_, show d.toNat - 48 < 8 by omega, rfl⟩
  | hexadecimal =>
    simp only [Radix.isDigit, Bool.or_eq_true, or_assoc] at h
    split
    · rename_i hdecimal
      have hhigh := (isDigit_iff_toNat.1 hdecimal).2
      exact ⟨_, show d.toNat - 48 < 16 by omega, rfl⟩
    · rename_i hdecimal
      split
      · rename_i hlower
        simp only [Bool.and_eq_true, decide_eq_true_eq, le_iff_toNat_le] at hlower
        obtain ⟨hlow, hhigh⟩ : 97 ≤ d.toNat ∧ d.toNat ≤ 102 := hlower
        exact ⟨_, show d.toNat - 97 + 10 < 16 by omega, rfl⟩
      · rename_i hlower
        have hupper := (h.resolve_left hdecimal).resolve_left hlower
        rw [if_pos hupper]
        simp only [Bool.and_eq_true, decide_eq_true_eq, le_iff_toNat_le] at hupper
        obtain ⟨hlow, hhigh⟩ : 65 ≤ d.toNat ∧ d.toNat ≤ 70 := hupper
        exact ⟨_, show d.toNat - 65 + 10 < 16 by omega, rfl⟩

/-- Digits are written as they are. -/
theorem escape_digit (h : radix.isDigit d = true) : (escape '"' d).toList = [d] := by
  have hne : ∀ c, radix.isDigit c = false → d ≠ c := by
    rintro c hc rfl
    rw [hc] at h
    cases h
  have hbounds := toNat_of_isDigit h
  unfold escape
  rw [if_neg (hne _ (by cases radix <;> rfl)), if_neg (hne _ (by cases radix <;> rfl)),
    if_neg (hne _ (by cases radix <;> rfl)), if_neg (hne _ (by cases radix <;> rfl)),
    if_neg (hne _ (by cases radix <;> rfl)), if_neg (hne _ (by cases radix <;> rfl)),
    if_neg (by simp only [Bool.or_eq_true, decide_eq_true_eq]; omega)]
  simp

/-- A digit is written as itself. -/
theorem written_digits (h : ∀ d ∈ digits, radix.isDigit d = true) : written digits = digits := by
  induction digits with
  | nil => rfl
  | cons d digits ih =>
    rw [List.forall_mem_cons] at h
    rw [written, List.flatMap_cons, escape_digit h.1]
    exact congrArg (d :: ·) (ih h.2)

/-- Digits of a radix denote a number. -/
theorem exists_foldDigits (h : ∀ d ∈ digits, radix.isDigit d = true) (value : Nat) :
    ∃ n, Number.foldDigits (base radix) value digits = some n := by
  induction digits generalizing value with
  | nil => exact ⟨value, rfl⟩
  | cons d digits ih =>
    rw [List.forall_mem_cons] at h
    obtain ⟨digit, hdigit, hvalue⟩ := exists_digitValue h.1
    obtain ⟨n, hn⟩ := ih h.2 (base radix * value + digit)
    exact ⟨n, by simp only [Number.foldDigits, hvalue, if_pos hdigit, hn]⟩

/-- The digits of an escape stand at the front of what follows it. -/
theorem front_digitsOf (radix : Radix) (limit : Option Nat) (text : List Char) :
    digitsOf radix limit text <+: text := by
  cases limit with
  | none => exact List.takeWhile_prefix _
  | some n => exact (List.take_prefix n _).trans (List.takeWhile_prefix _)

/-- An escape takes digits of its radix only. -/
theorem isDigit_of_mem_digitsOf {limit : Option Nat} {text : List Char}
    (h : d ∈ digitsOf radix limit text) : radix.isDigit d = true := by
  cases limit with
  | none => exact List.all_eq_true.1 List.all_takeWhile d h
  | some n => exact List.all_eq_true.1 List.all_takeWhile d (List.mem_of_mem_take h)

/-- Digits behind the start of an escape stand for the number that they make. -/
theorem numericEscape_eq (hne : digits ≠ []) (hdigits : ∀ d ∈ digits, radix.isDigit d = true)
    (lead : Nat) : ∃ code, numericEscape? radix lead digits = some (code, lead + digits.length) ∧
      Number.foldDigits (base radix) 0 digits = some code := by
  obtain ⟨code, hcode⟩ := exists_foldDigits hdigits 0
  exact ⟨code, by rw [numericEscape?, if_neg hne, hcode]; rfl, hcode⟩

end Digits

section Reading

variable {radix : Radix} {c : Char} {rest : List Char}

/-- How many more digits the numeric escape of a character would take, if they came. -/
def room : Radix → Option Nat
  | .octal => some 2
  | .hexadecimal => none

/-- A character that is not written by its number is written as it is or by a simple escape. -/
theorem escape_cases (h : numberedIn? c = none) :
    (∃ e, (escape '"' c).toList = ['\\', e] ∧ simpleEscape? e = some c) ∨
      (escape '"' c).toList = [c] ∧ c ≠ '"' ∧ c ≠ '\n' ∧ c ≠ '\\' := by
  unfold numberedIn? at h
  unfold escape
  split at h
  · cases h
  · rename_i hnul
    repeat' split
    · rename_i hfeed
      exact .inl ⟨'n', rfl, by rw [hfeed]; rfl⟩
    · rename_i htab
      exact .inl ⟨'t', rfl, by rw [htab]; rfl⟩
    · rename_i hreturn
      exact .inl ⟨'r', rfl, by rw [hreturn]; rfl⟩
    · rename_i hback
      exact .inl ⟨'\\', rfl, by rw [hback]; rfl⟩
    · rename_i hquote
      exact .inl ⟨'"', by rw [hquote]; rfl, by rw [hquote]; rfl⟩
    · simp_all
    · rename_i hfeed _ _ hback hquote _
      exact .inr ⟨by simp, hquote, hfeed, hback⟩

/-- A character that is not written by its number is read back, whatever follows. -/
theorem readLiteral_plain (h : numberedIn? c = none) (rest : List Char) :
    readLiteral ((escape '"' c).toList ++ rest) =
      (readLiteral rest).map fun (codes, behind) => (c.toNat :: codes, behind) := by
  rcases escape_cases h with ⟨e, hescape, hsimple⟩ | ⟨hescape, hquote, hfeed, hback⟩
  · rw [hescape, List.cons_append, readLiteral, if_neg (by decide), if_neg (by decide), if_pos rfl]
    simp only [List.cons_append, List.nil_append, escapeAt, hsimple]
    rfl
  · rw [hescape, List.cons_append, readLiteral, if_neg hquote, if_neg hfeed, if_neg hback]
    rfl

/-- Each of the sixteen digits is read as the number that it was written for. -/
theorem digitChar_digit : ∀ m < 16, Radix.hexadecimal.isDigit m.digitChar = true ∧
    Number.digitValue? m.digitChar = some m := by
  decide

/-- A number below 128 is read back from its two hexadecimal digits. -/
theorem hexPair_digits {n : Nat} (hn : n < 128) :
    (∀ d ∈ (hexPair n).toList, Radix.hexadecimal.isDigit d = true) ∧
      Number.foldDigits 16 0 (hexPair n).toList = some n := by
  obtain ⟨hfirst, hfirstValue⟩ := digitChar_digit (n / 16) (by omega)
  obtain ⟨hsecond, hsecondValue⟩ := digitChar_digit (n % 16) (by omega)
  rw [hexPair, String.toList_ofList]
  refine ⟨by simp [hfirst, hsecond], ?_⟩
  simp only [Number.foldDigits, hfirstValue, hsecondValue, if_pos (show n / 16 < 16 by omega),
    if_pos (show n % 16 < 16 by omega)]
  congr 1
  omega

/-- A byte is written with two hexadecimal digits. -/
theorem length_hexPair (n : Nat) : (hexPair n).toList.length = 2 := by
  rw [hexPair, String.toList_ofList]
  rfl

/-- An octal escape takes up to two digits behind its own. -/
theorem escapeAt_octal (rest : List Char) : ∃ code,
    escapeAt ('0' :: rest) = some (code, 1 + (digitsOf .octal (room .octal) rest).length) ∧
      (digitsOf .octal (room .octal) rest = [] → code = 0) := by
  have hdigits : digitsOf .octal (some 3) ('0' :: rest) =
      '0' :: digitsOf .octal (room .octal) rest := by
    rw [digitsOf, List.takeWhile_cons_of_pos rfl]
    rfl
  obtain ⟨code, hescape, hcode⟩ := numericEscape_eq (List.cons_ne_nil '0' _)
    (fun d hd => isDigit_of_mem_digitsOf (hdigits ▸ hd)) 0
  refine ⟨code, ?_, fun hnone => ?_⟩
  · have hread : escapeAt ('0' :: rest) = numericEscape? .octal 0
        (digitsOf .octal (some 3) ('0' :: rest)) := rfl
    rw [hread, hdigits, hescape, List.length_cons, Nat.zero_add, Nat.add_comm]
  · rw [hnone] at hcode
    cases hcode
    rfl

/-- A hexadecimal escape takes all the digits behind its own. Only if there are none does it denote
the character it was written for. -/
theorem escapeAt_hexadecimal {n : Nat} (hn : n < 128) (rest : List Char) : ∃ code,
    escapeAt ('x' :: ((hexPair n).toList ++ rest)) =
        some (code, 3 + (digitsOf .hexadecimal (room .hexadecimal) rest).length) ∧
      (digitsOf .hexadecimal (room .hexadecimal) rest = [] → code = n) := by
  obtain ⟨hown, hvalue⟩ := hexPair_digits hn
  have hlength := length_hexPair n
  generalize (hexPair n).toList = pair at hown hvalue hlength ⊢
  have hdigits : digitsOf .hexadecimal none (pair ++ rest) =
      pair ++ digitsOf .hexadecimal (room .hexadecimal) rest :=
    List.takeWhile_append_of_pos hown
  have hne : pair ++ digitsOf .hexadecimal (room .hexadecimal) rest ≠ [] :=
    List.append_ne_nil_of_left_ne_nil (List.ne_nil_of_length_pos (by omega)) _
  obtain ⟨code, hescape, hcode⟩ :=
    numericEscape_eq hne (fun d hd => isDigit_of_mem_digitsOf (hdigits ▸ hd)) 1
  refine ⟨code, ?_, fun hnone => ?_⟩
  · have hread : escapeAt ('x' :: (pair ++ rest)) = numericEscape? .hexadecimal 1
        (digitsOf .hexadecimal none (pair ++ rest)) := rfl
    rw [hread, hdigits, hescape, List.length_append, hlength, ← Nat.add_assoc]
  · rw [hnone, List.append_nil] at hcode
    exact Option.some.inj (hcode.symm.trans hvalue)

/-- Only NUL is written in octal. -/
theorem eq_nul_of_numberedIn (h : numberedIn? c = some .octal) : c = '\x00' := by
  unfold numberedIn? at h
  split at h
  · assumption
  · repeat' split at h
    all_goals cases h

/-- The other control characters are written in hexadecimal: all that have no letter of their own,
NUL aside. -/
theorem escape_control (h : numberedIn? c = some .hexadecimal) : c.toNat < 128 ∧
    (escape '"' c).toList = '\\' :: 'x' :: (hexPair c.toNat).toList := by
  unfold numberedIn? at h
  split at h
  · cases h
  · rename_i hnul
    split at h
    · cases h
    · rename_i hsimple
      split at h
      · rename_i hcontrol
        simp only [Bool.or_eq_true, decide_eq_true_eq, not_or] at hsimple hcontrol
        have hback : c ≠ '\\' := by
          rintro rfl
          revert hcontrol
          decide
        have hquote : c ≠ '"' := by
          rintro rfl
          revert hcontrol
          decide
        refine ⟨by omega, ?_⟩
        rw [escape, if_neg hsimple.1.1, if_neg hsimple.1.2, if_neg hsimple.2, if_neg hnul,
          if_neg hback, if_neg hquote, if_pos (by simpa using hcontrol)]
        simp
      · cases h

/-- The escape of a character that is written by its number takes the digits behind it for its own,
as far as there is room. -/
theorem readLiteral_numbered (h : numberedIn? c = some radix) (rest : List Char) : ∃ code,
    readLiteral ((escape '"' c).toList ++ rest) =
        (readLiteral (rest.drop (digitsOf radix (room radix) rest).length)).map
          (fun (codes, behind) => (code :: codes, behind)) ∧
      (digitsOf radix (room radix) rest = [] → code = c.toNat) := by
  cases radix with
  | octal =>
    obtain rfl := eq_nul_of_numberedIn h
    obtain ⟨code, hescape, hcode⟩ := escapeAt_octal rest
    refine ⟨code, ?_, hcode⟩
    show readLiteral ('\\' :: '0' :: rest) = _
    rw [readLiteral, if_neg (by decide), if_neg (by decide), if_pos rfl, hescape]
    simp only [Nat.add_comm 1, List.drop_succ_cons]
  | hexadecimal =>
    obtain ⟨hsmall, hescape⟩ := escape_control h
    obtain ⟨code, hread, hcode⟩ := escapeAt_hexadecimal hsmall rest
    have hpair := length_hexPair c.toNat
    have hdrop : ∀ k, ('x' :: ((hexPair c.toNat).toList ++ rest)).drop (3 + k) = rest.drop k := by
      intro k
      rw [show 3 + k = (hexPair c.toNat).toList.length + k + 1 by omega, List.drop_succ_cons,
        List.drop_length_add_append]
    refine ⟨code, ?_, hcode⟩
    rw [hescape, List.cons_append, List.cons_append, readLiteral, if_neg (by decide),
      if_neg (by decide), if_pos rfl, hread]
    simp only [hdrop]

end Reading

section Texts

variable {radix : Radix} {limit : Option Nat} {c : Char}

/-- What is no digit does not begin with one when it is written. -/
theorem takeWhile_escape (h : radix.isDigit c = false) (rest : List Char) :
    ((escape '"' c).toList ++ rest).takeWhile radix.isDigit = [] := by
  have hback : radix.isDigit '\\' = false := by cases radix <;> rfl
  cases hnumbered : numberedIn? c with
  | none =>
    rcases escape_cases hnumbered with ⟨e, hescape, -⟩ | ⟨hescape, -⟩ <;>
      simp [hescape, hback, h]
  | some own =>
    cases own with
    | octal =>
      obtain rfl := eq_nul_of_numberedIn hnumbered
      have hescape : (escape '"' '\x00').toList = ['\\', '0'] := rfl
      simp [hescape, hback]
    | hexadecimal => simp [(escape_control hnumbered).2, hback]

/-- The digits at the front of a text are the same in its literal. -/
theorem digitsOf_written (text behind : List Char) :
    digitsOf radix limit (written text ++ '"' :: behind) = digitsOf radix limit text := by
  have hquote : radix.isDigit '"' = false := by cases radix <;> rfl
  have hdigits : (written text ++ '"' :: behind).takeWhile radix.isDigit =
      text.takeWhile radix.isDigit := by
    induction text with
    | nil => simp [written, hquote]
    | cons c text ih =>
      rw [written, List.flatMap_cons, List.append_assoc]
      cases hdigit : radix.isDigit c with
      | false => rw [takeWhile_escape hdigit, List.takeWhile_cons_of_neg (by simp [hdigit])]
      | true =>
        rw [escape_digit hdigit, List.singleton_append, List.takeWhile_cons_of_pos hdigit,
          List.takeWhile_cons_of_pos hdigit]
        exact congrArg (c :: ·) ih
  unfold digitsOf
  rw [hdigits]

/-- Digits taken from the front of a text are taken from its literal. -/
theorem drop_written (text behind : List Char) :
    (written text ++ '"' :: behind).drop (digitsOf radix limit text).length =
      written (text.drop (digitsOf radix limit text).length) ++ '"' :: behind := by
  have hdigits : ∀ d ∈ digitsOf radix limit text, radix.isDigit d = true :=
    fun d hd => isDigit_of_mem_digitsOf hd
  have hprefix := front_digitsOf radix limit text
  generalize digitsOf radix limit text = digits at hdigits hprefix ⊢
  obtain ⟨rest, rfl⟩ := hprefix
  have hwritten : written (digits ++ rest) = digits ++ written rest := by
    rw [written, List.flatMap_append]
    exact congrArg (· ++ written rest) (written_digits hdigits)
  rw [hwritten, List.append_assoc, List.drop_left, List.drop_left]

/-- An escape has no digits to take exactly if the next character is none. -/
theorem digitsOf_eq_nil_iff (text : List Char) :
    digitsOf radix (room radix) text = [] ↔ ∀ d ∈ text.head?, radix.isDigit d = false := by
  cases text with
  | nil => cases radix <;> simp [digitsOf, room]
  | cons d text =>
    cases hdigit : radix.isDigit d <;> cases radix <;> simp [digitsOf, room, hdigit]

/-- A literal is read up to its own closing quote, with no more characters than the text has; and it is
read as the text exactly if no escape takes a digit behind it for its own. By induction on the length
of the text, since an escape can take more than one character of it. -/
theorem exists_readLiteral (text behind : List Char) : ∃ codes,
    readLiteral (written text ++ '"' :: behind) = some (codes, behind) ∧
      codes.length ≤ text.length ∧
      (codes = text.map Char.toNat ↔ text.IsChain KeepsApart) := by
  match text with
  | [] =>
    refine ⟨[], ?_, by simp⟩
    rw [written, List.flatMap_nil, List.nil_append, readLiteral, if_pos rfl]
  | c :: text =>
    rw [written, List.flatMap_cons, List.append_assoc, List.isChain_cons]
    cases hnumbered : numberedIn? c with
    | none =>
      obtain ⟨codes, hread, hlength, hcodes⟩ := exists_readLiteral text behind
      have happart : ∀ d ∈ text.head?, KeepsApart c d := by
        intro d _ radix hradix
        rw [hnumbered] at hradix
        cases hradix
      refine ⟨c.toNat :: codes, ?_, Nat.succ_le_succ hlength, ?_⟩
      · rw [readLiteral_plain hnumbered, ← written, hread]
        rfl
      · rw [List.map_cons, List.cons_inj_right, hcodes]
        exact ⟨fun hchain => ⟨happart, hchain⟩, And.right⟩
    | some radix =>
      obtain ⟨code, hread, hcode⟩ := readLiteral_numbered hnumbered (written text ++ '"' :: behind)
      rw [digitsOf_written, drop_written] at hread
      rw [digitsOf_written] at hcode
      obtain ⟨codes, hrest, hlength, hcodes⟩ :=
        exists_readLiteral (text.drop (digitsOf radix (room radix) text).length) behind
      have happart : (∀ d ∈ text.head?, KeepsApart c d) ↔
          digitsOf radix (room radix) text = [] := by
        rw [digitsOf_eq_nil_iff]
        refine forall₂_congr fun d _ => ⟨fun h => h radix hnumbered, fun h own hown => ?_⟩
        rw [hnumbered] at hown
        cases hown
        exact h
      rw [List.length_drop] at hlength
      refine ⟨code :: codes, by rw [← written, hread, hrest]; rfl, ?_, ?_⟩
      · rw [List.length_cons, List.length_cons]
        omega
      · rw [happart]
        by_cases hnone : digitsOf radix (room radix) text = []
        · rw [hnone, List.length_nil, List.drop_zero] at hcodes
          rw [hcode hnone, List.map_cons, List.cons_inj_right, hcodes]
          exact ⟨fun hchain => ⟨hnone, hchain⟩, And.right⟩
        · -- What the escape took is missing, so that fewer characters are read.
          have hpos := List.length_pos_of_ne_nil hnone
          refine ⟨fun heq => ?_, fun h => absurd h.1 hnone⟩
          have hcount := congrArg List.length heq
          have hshort := (front_digitsOf radix (room radix) text).length_le
          simp only [List.length_cons, List.length_map] at hcount
          omega
termination_by text.length
decreasing_by
  · simp
  · rw [List.length_drop, List.length_cons]
    omega

end Texts

end Target

/-- The literal of a string has the form of a call with one string literal, which ends at the last
quote of the text whatever is in the string. It denotes the string exactly if behind no NUL stands an
octal digit, and behind no other control character written by its number a hexadecimal one. -/
theorem Typed.readLiteral_of_ofLiteral (text : String) (position : Position) :
    ∃ typed body codes, (Typed.ofLiteral (.str text) position).outcome = .ok typed ∧
      typed.text = "std::string(\"" ++ String.ofList body ++ "\")" ∧
      Target.readLiteral (body ++ ['"', ')']) = some (codes, [')']) ∧
      (codes = text.toList.map Char.toNat ↔ text.toList.IsChain Target.KeepsApart) := by
  obtain ⟨codes, hread, -, hcodes⟩ := Target.exists_readLiteral text.toList [')']
  exact ⟨_, Target.written text.toList, codes, rfl, Target.stringLiteral_eq text.toList, hread,
    hcodes⟩

/-- A NUL with the digit one behind it is read as the single character of number one. -/
theorem nulOne_readLiteral :
    ∃ typed, (Typed.ofLiteral (.str "\x001") ⟨1, 1⟩).outcome = .ok typed ∧
      typed.text = "std::string(\"\\01\")" ∧
      Target.readLiteral "\\01\")".toList = some ([1], [')']) ∧
      "\x001".toList.map Char.toNat = [0, 49] := by
  refine ⟨_, rfl, by decide +kernel, ?_, rfl⟩
  decide +kernel

end Sprout
