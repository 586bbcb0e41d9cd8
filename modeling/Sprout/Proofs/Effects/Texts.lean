import Sprout.Proofs.Effects.Tokens
import Sprout.Proofs.Parsing.Shapes
import Sprout.Proofs.Typing.Steps

namespace Sprout

namespace Effect

/-- Where the reading of a text stands: in a word, whose latest letter is in front; behind a word
and blanks; behind a sign; or between quotes, perhaps behind a backslash. -/
inductive Mode
  | word (letters : List Char)
  | gap (letters : List Char)
  | sign (sign : Char)
  | quoted (quote : Char)
  | escaped (quote : Char)
deriving DecidableEq, Repr

/-- Where the reading stands behind a character that nothing in front of it goes on with. -/
def Mode.fresh (c : Char) : Mode :=
  if Token.isNamePart c then .word [c]
  else if c = '"' || c = '\'' then .quoted c
  else if c = '+' || c = '-' then .sign c
  else .word []

/-- The sign that makes up the step that the effect is. -/
def sign? : Effect → Option Char
  | step .increment => some '+'
  | step .decrement => some '-'
  | _ => none

/-- The number of times that a call of the word has the effect. -/
def calls (E : Effect) (letters : List Char) : Nat :=
  if E.callee? = some (String.ofList letters.reverse) then 1 else 0

/-- Reads a character: where the reading stands behind it, and how often it completes the effect. -/
def advance (E : Effect) (m : Mode) (c : Char) : Mode × Nat :=
  match m with
  | .word letters =>
    if c = '(' then (.word [], E.calls letters)
    else if Token.isNamePart c then (.word (c :: letters), 0)
    else if c = ' ' && letters ≠ [] then (.gap letters, 0)
    else (.fresh c, 0)
  | .gap letters =>
    if c = '(' then (.word [], E.calls letters)
    else if c = ' ' then (.gap letters, 0)
    else (.fresh c, 0)
  | .sign sign =>
    if c = sign then (.word [], if E.sign? = some sign then 1 else 0) else (.fresh c, 0)
  | .quoted quote =>
    (if c = '\\' then .escaped quote else if c = quote then .word [] else .quoted quote, 0)
  | .escaped quote => (.quoted quote, 0)

/-- Reads a text: where the reading stands behind it, and how often it has the effect. -/
def reads (E : Effect) (m : Mode) : List Char → Mode × Nat
  | [] => (m, 0)
  | c :: rest =>
    let next := E.advance m c
    let behind := reads E next.1 rest
    (behind.1, next.2 + behind.2)

/-- The number of times that a text of the generated program has the effect. -/
def inText (E : Effect) (text : String) : Nat :=
  (E.reads (.word []) text.toList).2

variable {E : Effect} {m m' m'' : Mode} {text more : List Char} {c : Char} {n k : Nat}

/-- A text is read in two pieces, and their effects are added. -/
theorem reads_append (h : E.reads m text = (m', n)) (h' : E.reads m' more = (m'', k)) :
    E.reads m (text ++ more) = (m'', n + k) := by
  induction text generalizing m n with
  | nil =>
    cases h
    simpa using h'
  | cons c text ih =>
    simp only [reads] at h
    obtain ⟨hmode, hcount⟩ := Prod.mk.inj h
    have hrest := ih (Prod.ext hmode rfl)
    simp only [List.cons_append, reads, hrest, ← hcount, Nat.add_assoc]

/-- Whether the reading stands neither behind a sign nor between quotes. -/
def Mode.isCalm : Mode → Bool
  | word _ | gap _ => true
  | _ => false

/-- Whether a character ends every word in front of it and starts nothing that is called. -/
def isMark (c : Char) : Bool :=
  !Token.isNamePart c && c ≠ '(' && c ≠ ' '

/-- Where no word has been read, nothing is called. -/
theorem calls_nil (E : Effect) : E.calls [] = 0 := by
  cases E <;> rfl

/-- Between words, a sign is read afresh and has no effect by itself. -/
theorem advance_mark (hm : m.isCalm = true) (hc : isMark c = true) :
    E.advance m c = (.fresh c, 0) := by
  simp only [isMark, Bool.and_eq_true, Bool.not_eq_true', decide_eq_true_eq] at hc
  cases m with
  | word letters | gap letters => simp [advance, hc]
  | sign | quoted | escaped => cases hm

/-- A mark is read alike wherever nothing is under way. -/
theorem reads_mark (hm : m.isCalm = true) (hc : isMark c = true) :
    E.reads m (c :: text) = E.reads (.word []) (c :: text) := by
  simp only [reads, advance_mark hm hc, advance_mark (m := .word []) rfl hc]

/-- So is a mark behind a blank. -/
theorem reads_blank_mark (hm : m.isCalm = true) (hc : isMark c = true) :
    E.reads m (' ' :: c :: text) = E.reads (.word []) (c :: text) := by
  have hblank : E.advance m ' ' = ((E.advance m ' ').1, 0) ∧ (E.advance m ' ').1.isCalm = true := by
    cases m with
    | word letters =>
      by_cases hletters : letters = []
      · subst hletters
        exact ⟨rfl, rfl⟩
      · have hgap : E.advance (.word letters) ' ' = (.gap letters, 0) := by
          simp [advance, hletters]
          decide
        rw [hgap]
        exact ⟨rfl, rfl⟩
    | gap letters => exact ⟨rfl, rfl⟩
    | sign | quoted | escaped => cases hm
  rw [reads, hblank.1]
  simp only [reads_mark hblank.2 hc, Nat.zero_add]

/-- Behind a sign, anything but the same sign is read as if the sign were not there. -/
theorem reads_sign {sign : Char} (hne : text ≠ []) (hhead : text.head? ≠ some sign) :
    E.reads (.sign sign) text = E.reads (.word []) text := by
  obtain ⟨c, rest, rfl⟩ := List.exists_cons_of_ne_nil hne
  have hc : c ≠ sign := by simpa using hhead
  have hfresh : E.advance (.word []) c = (.fresh c, 0) := by
    unfold advance
    by_cases hopening : c = '('
    · subst hopening
      change (Mode.word [], E.calls []) = _
      rw [calls_nil]
      rfl
    · by_cases hpart : Token.isNamePart c = true
      · simp [hopening, hpart, Mode.fresh]
      · simp [hopening, hpart]
  have hsign : E.advance (.sign sign) c = (.fresh c, 0) := if_neg hc
  simp only [reads, hfresh, hsign]

/-- Whether a text holds no call, no quotes and no step: each of its signs has something else behind
it. -/
def isCalmText : List Char → Bool
  | [] => true
  | c :: rest =>
    c ≠ '(' && c ≠ '"' && c ≠ '\'' && isCalmText rest &&
      ((c ≠ '+' && c ≠ '-') || rest.head?.any fun d => d ≠ '+' && d ≠ '-')

/-- Calm texts are calm one behind the other. -/
theorem isCalmText_append (h : isCalmText text = true) (h' : isCalmText more = true) :
    isCalmText (text ++ more) = true := by
  induction text with
  | nil => exact h'
  | cons c text ih =>
    simp only [isCalmText, Bool.and_eq_true, Bool.or_eq_true] at h
    simp only [List.cons_append, isCalmText, ih h.1.2, h.1.1, Bool.true_and, Bool.and_self,
      Bool.or_eq_true, Bool.and_eq_true]
    refine h.2.imp_right fun hnext => ?_
    cases text with
    | nil => cases hnext
    | cons => exact hnext

/-- A name is calm: it calls nothing as long as no parenthesis follows it. -/
theorem isCalmText_of_isNamePart (h : ∀ c ∈ text, Token.isNamePart c = true) :
    isCalmText text = true := by
  induction text with
  | nil => rfl
  | cons c text ih =>
    rw [List.forall_mem_cons] at h
    have hne : ∀ d, Token.isNamePart d = false → c ≠ d := by
      rintro d hd rfl
      rw [h.1] at hd
      cases hd
    simp [isCalmText, ih h.2, hne '(' rfl, hne '"' rfl, hne '\'' rfl, hne '+' rfl, hne '-' rfl]

/-- A character that is no quote and no plus or minus leaves the reader calm. -/
theorem fresh_isCalm (hquote : c ≠ '"' ∧ c ≠ '\'') (hsign : c ≠ '+' ∧ c ≠ '-') :
    (Mode.fresh c).isCalm = true := by
  unfold Mode.fresh
  split
  · rfl
  · rw [if_neg (by simp [hquote]), if_neg (by simp [hsign])]
    rfl

/-- A character that is no quote and calls nothing leaves the reading calm, or behind a sign. -/
theorem advance_calm (hm : m.isCalm = true) (hopening : c ≠ '(') (hquote : c ≠ '"' ∧ c ≠ '\'') :
    ∃ m', E.advance m c = (m', 0) ∧ (m'.isCalm = true ∨ m' = .sign c ∧ (c = '+' ∨ c = '-')) := by
  have hfresh : (Mode.fresh c).isCalm = true ∨ Mode.fresh c = .sign c ∧ (c = '+' ∨ c = '-') := by
    by_cases hsign : c = '+' ∨ c = '-'
    · refine .inr ⟨?_, hsign⟩
      rcases hsign with rfl | rfl <;> rfl
    · rw [not_or] at hsign
      exact .inl (fresh_isCalm hquote hsign)
  cases m with
  | word letters =>
    simp only [advance, if_neg hopening]
    split
    · exact ⟨_, rfl, .inl rfl⟩
    · split
      · exact ⟨_, rfl, .inl rfl⟩
      · exact ⟨_, rfl, hfresh⟩
  | gap letters =>
    simp only [advance, if_neg hopening]
    split
    · exact ⟨_, rfl, .inl rfl⟩
    · exact ⟨_, rfl, hfresh⟩
  | sign | quoted | escaped => cases hm

/-- A calm text has no effect, by induction on its characters: no sign in it is doubled, and nothing
in it is called. -/
theorem reads_of_isCalmText (hm : m.isCalm = true) (h : isCalmText text = true) :
    ∃ m', m'.isCalm = true ∧ E.reads m text = (m', 0) := by
  induction text generalizing m with
  | nil => exact ⟨m, hm, rfl⟩
  | cons c text ih =>
    simp only [isCalmText, Bool.and_eq_true, Bool.or_eq_true, decide_eq_true_eq] at h
    obtain ⟨⟨⟨⟨hopening, hdouble⟩, hsingle⟩, hrest⟩, hnext⟩ := h
    obtain ⟨m₁, hadvance, hm₁⟩ := advance_calm (E := E) hm hopening ⟨hdouble, hsingle⟩
    rw [reads, hadvance]
    simp only [Nat.zero_add]
    rcases hm₁ with hm₁ | ⟨rfl, hsign⟩
    · exact ih hm₁ hrest
    · -- Behind a sign there is something else, which is read as if the sign were not there.
      have hother := hnext.resolve_left fun hneither => hsign.elim hneither.1 hneither.2
      cases text with
      | nil => cases hother
      | cons d text =>
        simp only [List.head?_cons, Option.any_some, Bool.and_eq_true, decide_eq_true_eq] at hother
        have hd : d ≠ c := by
          rintro rfl
          exact hsign.elim hother.1 hother.2
        rw [reads_sign (by simp) (by simpa using hd)]
        exact ih rfl hrest

/-- `Adds E text n`: read where nothing is under way, a text leaves nothing under way and has the
effect `n` times. -/
def Adds (E : Effect) (text : List Char) (n : Nat) : Prop :=
  ∃ m, m.isCalm = true ∧ E.reads (.word []) text = (m, n)

/-- A calm text adds no effect. -/
theorem Adds.of_isCalmText (h : isCalmText text = true) : Adds E text 0 :=
  reads_of_isCalmText rfl h

/-- A text that is read from the end of a word to the end of a word adds what it has by itself. -/
theorem Adds.of_reads (h : E.reads (.word []) text = (.word [], n)) : Adds E text n :=
  ⟨_, rfl, h⟩

/-- A text that ends every word may stand in front of any other. -/
theorem Adds.behind (h : E.reads (.word []) text = (.word [], n)) (h' : Adds E more k) :
    Adds E (text ++ more) (n + k) := by
  obtain ⟨m, hm, hmore⟩ := h'
  exact ⟨m, hm, reads_append h hmore⟩

/-- A text may stand in front of a mark. -/
theorem Adds.mark (h : Adds E text n) (hc : isMark c = true) (h' : Adds E (c :: more) k) :
    Adds E (text ++ c :: more) (n + k) := by
  obtain ⟨m, hm, htext⟩ := h
  obtain ⟨m', hm', hmore⟩ := h'
  refine ⟨m', hm', reads_append htext ?_⟩
  rw [reads_mark hm hc, hmore]

/-- A text may stand in front of a mark behind a blank. -/
theorem Adds.blank_mark (h : Adds E text n) (hc : isMark c = true) (h' : Adds E (c :: more) k) :
    Adds E (text ++ ' ' :: c :: more) (n + k) := by
  obtain ⟨m, hm, htext⟩ := h
  obtain ⟨m', hm', hmore⟩ := h'
  refine ⟨m', hm', reads_append htext ?_⟩
  rw [reads_blank_mark hm hc, hmore]

/-- Parentheses around a text add no effect. -/
theorem Adds.parenthesised (h : Adds E text n) : Adds E ('(' :: (text ++ [')'])) n := by
  have hopening : E.reads (.word []) ['('] = (.word [], 0) := by
    simp only [reads, advance, if_pos, calls_nil]
  have hclosing : Adds E [')'] 0 := .of_isCalmText rfl
  simpa using Adds.behind hopening (h.mark rfl hclosing)

/-- A name may go on with a digit. -/
theorem isNamePart_of_isDigit (h : c.isDigit = true) : Token.isNamePart c = true := by
  simp [Token.isNamePart, Char.isAlphanum, h]

/-- A name may go on with what it can start with. -/
theorem isNamePart_of_isNameStart (h : Token.isNameStart c = true) : Token.isNamePart c = true := by
  simp only [Token.isNameStart, Bool.or_eq_true] at h
  rcases h with h | h <;> simp [Token.isNamePart, Char.isAlphanum, h]

/-- A number is written with digits. -/
theorem isDigit_toString (n : Nat) : ∀ c ∈ (toString n).toList, c.isDigit = true := by
  intro c hc
  rw [Nat.toString_eq_repr, Nat.repr, String.toList_ofList] at hc
  exact Nat.isDigit_of_mem_toDigits (by decide) (by decide) hc

/-- Digits are calm. -/
theorem isCalmText_digits (h : ∀ c ∈ text, c.isDigit = true) : isCalmText text = true :=
  isCalmText_of_isNamePart fun c hc => isNamePart_of_isDigit (h c hc)

/-- A natural number is calm. -/
theorem isCalmText_nat (n : Nat) : isCalmText (toString n).toList = true :=
  isCalmText_digits (isDigit_toString n)

/-- A name of the generated program has the characters of a name. -/
theorem isNamePart_targetName {name : String} (h : Token.IsName name) :
    ∀ c ∈ (Target.name name).toList, Token.isNamePart c = true := by
  obtain ⟨c, more, rfl, hstart, hmore⟩ := h.spelled
  have hown : ∀ d ∈ c :: more, Token.isNamePart d = true := by
    rw [List.forall_mem_cons]
    exact ⟨isNamePart_of_isNameStart hstart, hmore⟩
  unfold Target.name
  split
  · simp only [String.toList_append, String.toList_ofList, List.forall_mem_append]
    refine ⟨?_, hown⟩
    simp only [String.reduceToList, List.mem_cons, List.not_mem_nil, or_false, forall_eq_or_imp,
      forall_eq]
    decide
  · simpa using hown

mutual
/-- The text of a type has no effect. It is made of words, angle brackets and sizes, and calls
nothing. -/
theorem isCalmText_target : (type : Ty) → isCalmText type.target.toList = true
  | .primitive p => by cases p <;> rfl
  | .array element (some size) => by
    simp only [Ty.target, String.toList_append]
    refine isCalmText_append (isCalmText_append (isCalmText_append (isCalmText_append rfl
      (isCalmText_target element)) rfl) (isCalmText_nat size)) rfl
  | .array element none => by
    simp only [Ty.target, String.toList_append]
    exact isCalmText_append (isCalmText_append rfl (isCalmText_target element)) rfl
  | .tuple items => by
    simp only [Ty.target, String.toList_append]
    exact isCalmText_append (isCalmText_append rfl (isCalmText_targetAll items)) rfl
  | .null => rfl
/-- The types in a tuple are calm, by induction on the types. -/
theorem isCalmText_targetAll : (items : List Ty) →
    isCalmText (", ".intercalate (Ty.targetAll items)).toList = true
  | [] => rfl
  | [item] => by simpa [Ty.targetAll] using isCalmText_target item
  | item :: next :: items => by
    simp only [Ty.targetAll, String.intercalate_cons_cons, String.toList_append]
    refine isCalmText_append (isCalmText_append (isCalmText_target item) rfl) ?_
    exact isCalmText_targetAll (next :: items)
end

section Numbers

open Floating

/-- A sign may stand in front of a digit. -/
theorem isCalmText_minus (hcalm : isCalmText text = true)
    (hdigit : text.head?.any Char.isDigit = true) : isCalmText ("-".toList ++ text) = true := by
  cases text with
  | nil => cases hdigit
  | cons c more =>
    have hplus : c ≠ '+' := by rintro rfl; cases hdigit
    have hminus : c ≠ '-' := by rintro rfl; cases hdigit
    change isCalmText ('-' :: c :: more) = true
    rw [isCalmText, hcalm]
    simp [hplus, hminus]

/-- A number is written with a first digit. -/
theorem exists_cons_toString (n : Nat) :
    ∃ c more, (toString n).toList = c :: more ∧ c.isDigit = true := by
  obtain ⟨c, more, hdigits⟩ : ∃ c more, (toString n).toList = c :: more := by
    refine List.exists_cons_of_ne_nil ?_
    rw [Nat.toString_eq_repr, Nat.repr, String.toList_ofList]
    exact Nat.toDigits_ne_nil
  exact ⟨c, more, hdigits, isDigit_toString n c (by rw [hdigits]; simp)⟩

/-- A whole number is written as a natural one, behind a minus if it is below zero. -/
theorem toString_int (value : Int) : toString value =
    if 0 ≤ value then toString value.toNat else "-" ++ toString (-value).toNat := by
  simp [Int.repr_eq_if]

/-- A whole number is calm. One minus is no step. -/
theorem isCalmText_int (value : Int) : isCalmText (toString value).toList = true := by
  rw [toString_int]
  split
  · exact isCalmText_nat _
  · rw [String.toList_append]
    obtain ⟨c, more, hdigits, hc⟩ := exists_cons_toString (-value).toNat
    exact isCalmText_minus (isCalmText_nat _) (by rw [hdigits]; exact hc)

/-- Zeros that fill a number up are calm. -/
theorem isCalmText_repeated (n : Nat) : isCalmText (repeated '0' n).toList = true := by
  refine isCalmText_digits fun c hc => ?_
  rw [repeated, String.toList_ofList] at hc
  rw [List.eq_of_mem_replicate hc]
  rfl

/-- A number with a point is calm. -/
theorem isCalmText_pointed {digits : String} (h : ∀ c ∈ digits.toList, c.isDigit = true)
    (whole : Int) : isCalmText (pointed digits whole).toList = true := by
  have hdigits := isCalmText_digits h
  unfold pointed
  split
  · simp only [String.toList_append]
    exact isCalmText_append (isCalmText_append rfl (isCalmText_repeated _)) hdigits
  · split
    · simp only [String.toList_append]
      exact isCalmText_append (isCalmText_append hdigits (isCalmText_repeated _)) rfl
    · simp only [String.toList_append, String.toList_ofList]
      refine isCalmText_append (isCalmText_append ?_ rfl) ?_
      · exact isCalmText_digits fun c hc => h c (List.mem_of_mem_take hc)
      · exact isCalmText_digits fun c hc => h c (List.mem_of_mem_drop hc)

/-- A number with an exponent is calm. The minus of the exponent stands by itself. -/
theorem isCalmText_scientific {digits : String} (h : ∀ c ∈ digits.toList, c.isDigit = true)
    (power : Int) : isCalmText (scientific digits power).toList = true := by
  have hpower := isCalmText_int power
  unfold scientific
  split
  · rfl
  · rename_i digit hdigits
    rw [hdigits] at h
    simp only [String.toList_append]
    refine isCalmText_append (isCalmText_append ?_ rfl) hpower
    exact isCalmText_digits (by simpa using h)
  · rename_i digit others hne hdigits
    rw [hdigits, List.forall_mem_cons] at h
    simp only [String.toList_append, String.toList_ofList]
    refine isCalmText_append (isCalmText_append (isCalmText_append (isCalmText_append ?_ rfl)
      (isCalmText_digits h.2)) rfl) hpower
    exact isCalmText_digits (by simpa using h.1)

/-- A decimal is written without effect, with a digit in front. A sign in it stands behind the
letter of an exponent, and none is doubled. -/
theorem isCalmText_layout (layout : Layout) (d : Decimal) :
    isCalmText (layout.write d).toList = true ∧
      (layout.write d).toList.head?.any Char.isDigit = true := by
  obtain ⟨c, more, hdigits, hc⟩ := exists_cons_toString d.digits
  unfold Layout.write
  dsimp only
  split
  · exact ⟨rfl, rfl⟩
  · split
    · refine ⟨isCalmText_pointed (isDigit_toString _) _, ?_⟩
      unfold pointed
      split
      · simp only [String.toList_append]
        rfl
      · split
        · simp only [String.toList_append, hdigits]
          exact hc
        · obtain ⟨k, hk⟩ : ∃ k, ((toString d.digits).length + d.exponent).toNat = k + 1 :=
            ⟨((toString d.digits).length + d.exponent).toNat - 1, by omega⟩
          simp only [String.toList_append, String.toList_ofList, hdigits, hk]
          exact hc
    · refine ⟨isCalmText_scientific (isDigit_toString _) _, ?_⟩
      unfold scientific
      rw [hdigits]
      cases more <;> simpa using hc

/-- A float is calm, however it is written. -/
theorem isCalmText_write (f : Format) (value : Floating) :
    isCalmText (f.write value).toList = true := by
  unfold Format.write
  split
  · rfl
  · split <;> rfl
  · obtain ⟨hcalm, hdigit⟩ := isCalmText_layout .literal _
    dsimp only
    rw [String.toList_append]
    split
    · exact isCalmText_minus hcalm hdigit
    · exact hcalm

/-- The text of a number has no effect. -/
theorem isCalmText_number (number : Number) : isCalmText number.target.toList = true := by
  have hrender : isCalmText number.render.toList = true := by
    cases number with
    | integer type value => exact isCalmText_int value
    | single value =>
      rw [Number.render, String.toList_append]
      exact isCalmText_append (isCalmText_write _ value) rfl
    | double value => exact isCalmText_write _ value
  unfold Number.target
  split
  · rw [String.toList_append]
    exact isCalmText_append (isCalmText_int _) rfl
  · rw [String.toList_append]
    exact isCalmText_append (isCalmText_int _) rfl
  · rw [String.toList_append]
    exact isCalmText_append (isCalmText_int _) rfl
  · exact hrender

end Numbers

variable {quote : Char}

/-- Inside quotes, an escape is skipped, also if it is a quote. -/
theorem reads_escaped (E : Effect) (quote c : Char) :
    E.reads (.quoted quote) ['\\', c] = (.quoted quote, 0) := by
  simp [reads, advance]

/-- Inside quotes, a character is skipped. -/
theorem reads_plain (hback : c ≠ '\\') (hquote : c ≠ quote) :
    E.reads (.quoted quote) [c] = (.quoted quote, 0) := by
  simp [reads, advance, hback, hquote]

/-- A character between quotes does not end them, since a quote in it stands behind a backslash. So
nothing between quotes counts as an effect. -/
theorem reads_escape (hquote : quote = '"' ∨ quote = '\'') (c : Char) :
    E.reads (.quoted quote) (Target.escape quote c).toList = (.quoted quote, 0) := by
  have hhex : ∀ n < 16, Nat.digitChar n ≠ '\\' ∧ Nat.digitChar n ≠ '"' ∧
      Nat.digitChar n ≠ '\'' := by decide
  have hdigit : ∀ n < 16, E.reads (.quoted quote) [Nat.digitChar n] = (.quoted quote, 0) := by
    intro n hn
    obtain ⟨hback, hdouble, hsingle⟩ := hhex n hn
    refine reads_plain hback ?_
    rcases hquote with rfl | rfl <;> assumption
  unfold Target.escape
  repeat' split
  · exact reads_escaped E quote 'n'
  · exact reads_escaped E quote 't'
  · exact reads_escaped E quote 'r'
  · exact reads_escaped E quote '0'
  · exact reads_escaped E quote '\\'
  · simpa using reads_escaped E quote c
  · rename_i hcontrol
    simp only [Bool.or_eq_true, decide_eq_true_eq] at hcontrol
    have hpair : (Target.hexPair c.toNat).toList =
        [Nat.digitChar (c.toNat / 16)] ++ [Nat.digitChar (c.toNat % 16)] := String.toList_ofList
    rw [String.toList_append, hpair]
    have hfirst := hdigit (c.toNat / 16) (by omega)
    have hsecond := hdigit (c.toNat % 16) (by omega)
    exact reads_append (reads_escaped E quote 'x') (reads_append hfirst hsecond)
  · rename_i hback hown _
    simpa using reads_plain (E := E) hback hown

/-- A character literal adds no effect, whatever its character is. -/
theorem adds_charLiteral (c : Char) : Adds E (Target.charLiteral c).toList 0 := by
  have hopening : E.reads (.word []) ['\''] = (.quoted '\'', 0) := rfl
  have hclosing : E.reads (.quoted '\'') ['\''] = (.word [], 0) := rfl
  have hbody := reads_escape (E := E) (.inr rfl) c
  simp only [Target.charLiteral, String.toList_append]
  exact .of_reads (reads_append (reads_append hopening hbody) hclosing)

/-- A string literal adds no effect, whatever stands in it. -/
theorem adds_stringLiteral (text : List Char) : Adds E (Target.stringLiteral text).toList 0 := by
  have hopening : E.reads (.word []) "std::string(\"".toList = (.quoted '"', 0) := by
    rcases E with (_ | _) | _ | _ | _ | _ <;> rfl
  have hclosing : E.reads (.quoted '"') "\")".toList = (.word [], 0) := rfl
  have hbody : E.reads (.quoted '"') (String.join (text.map (Target.escape '"'))).toList =
      (.quoted '"', 0) := by
    induction text with
    | nil => rfl
    | cons c text ih =>
      rw [List.map_cons, String.join_cons, String.toList_append]
      exact reads_append (reads_escape (.inl rfl) c) ih
  simp only [Target.stringLiteral, String.toList_append]
  exact .of_reads (reads_append (reads_append hopening hbody) hclosing)

variable {typed inner : Typed} {left right : List Char}

/-- An operand adds the same effects with parentheses around it. -/
theorem Adds.operand (h : Adds E typed.text.toList n) (precedence : Nat) :
    Adds E (typed.operand precedence).toList n := by
  unfold Typed.operand
  split
  · simpa using h.parenthesised
  · exact h

/-- Two texts may stand on either side of a comma. -/
theorem Adds.comma (h : Adds E text n) (h' : Adds E more k) :
    Adds E (text ++ (", ".toList ++ more)) (n + k) := by
  have hcomma : E.reads (.word []) [',', ' '] = (.word [], 0) := rfl
  have hbehind := Adds.behind hcomma h'
  rw [Nat.zero_add] at hbehind
  exact h.mark rfl hbehind

/-- The text of a list is its members between commas. -/
theorem adds_intercalate {texts : List String} {es : List Expr}
    (h : List.Forall₂ (fun text e => Adds E text.toList (E.total e)) texts es) :
    Adds E (", ".intercalate texts).toList (E.totalOf es) := by
  induction h with
  | nil => exact .of_isCalmText rfl
  | @cons text e texts es htext hrest ih =>
    cases hrest with
    | nil => simpa [totalOf] using htext
    | cons =>
      rw [String.intercalate_cons_cons, String.toList_append, String.toList_append,
        List.append_assoc]
      simpa [totalOf] using htext.comma ih

/-- A call has the effects of what is called and of its arguments. -/
theorem Adds.call {callee args : String}
    (hcallee : E.reads (.word []) (callee ++ "(").toList = (.word [], k))
    (hargs : Adds E args.toList n) : Adds E (callee ++ "(" ++ args ++ ")").toList (k + n) := by
  have hclosing : Adds E [')'] 0 := .of_isCalmText rfl
  rw [String.toList_append, String.toList_append, List.append_assoc]
  exact .behind hcallee (hargs.mark rfl hclosing)

/-- A member has the effects of its receiver, of what is called and of its arguments. -/
theorem Adds.member {receiver callee args : String} {j : Nat} (h : Adds E receiver.toList j)
    (hcallee : E.reads (.word []) (callee ++ "(").toList = (.word [], k))
    (hargs : Adds E args.toList n) :
    Adds E (receiver ++ "." ++ callee ++ "(" ++ args ++ ")").toList (j + (k + n)) := by
  have hpoint : E.reads (.word []) ['.'] = (.word [], 0) := rfl
  have hcall := Adds.behind hpoint (Adds.call hcallee hargs)
  have hmember := h.mark (c := '.') rfl hcall
  rw [Nat.zero_add] at hmember
  simpa using hmember

/-- Builtins are called by their names, as far as these have effects. -/
theorem reads_target {b : Builtin} (hb : b ∈ Builtin.all) :
    E.reads (.word []) (b.target ++ "(").toList =
      (.word [], if E.callee? = some b.name then 1 else 0) := by
  revert b
  rcases E with (_ | _) | _ | _ | _ | _ <;> decide

/-- What stands in front of the text that is cast has no effect, and its parenthesis calls
nothing. -/
theorem reads_cast (type : Ty) :
    E.reads (.word []) ("static_cast<" ++ type.target ++ ">(").toList = (.word [], 0) := by
  have hword : E.reads (.word []) "static_cast<".toList = (.word [], 0) := by
    rcases E with (_ | _) | _ | _ | _ | _ <;> rfl
  obtain ⟨m, hm, htype⟩ := reads_of_isCalmText (E := E) (m := .word []) rfl (isCalmText_target type)
  have hclosing : E.reads m ['>', '('] = (.word [], 0) := by
    rw [reads_mark hm rfl]
    rcases E with (_ | _) | _ | _ | _ | _ <;> rfl
  simp only [String.toList_append]
  exact reads_append (reads_append hword htype) hclosing

/-- A cast adds the effects of what is cast, and none of its own: what stands in front of its
parenthesis calls nothing. -/
theorem Adds.cast (type : Ty) (h : Adds E text n) :
    Adds E (("static_cast<" ++ type.target ++ ">(").toList ++ (text ++ [')'])) n := by
  have hclosing : Adds E [')'] 0 := .of_isCalmText rfl
  simpa using Adds.behind (reads_cast type) (h.mark rfl hclosing)

end Effect

end Sprout
