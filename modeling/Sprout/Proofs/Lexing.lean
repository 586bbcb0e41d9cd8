import Mathlib
import Sprout.Number
import Sprout.Token.Lexer

namespace Sprout

namespace Token

/-- `Scans p text rest ts`: in front of `rest`, the text that starts at `p` reads as `ts`. The front
of a text reads the same whatever stands behind it, as long as that cannot go on with the last
token; so the tokens of a text are found piece by piece. -/
def Scans (p : Position) (text rest : List Char) (ts : List Token) : Prop :=
  scan p (text ++ rest) = (scan (p.after text) rest).map (ts ++ ·)

section Scans

variable {p : Position} {c : Char} {text more rest : List Char} {kind : Kind} {ts us : List Token}

/-- A text in two pieces reads as the tokens of both. -/
theorem Scans.append {front : List Char} (hfront : Scans p front (text ++ rest) ts)
    (htext : Scans (p.after front) text rest us) : Scans p (front ++ text) rest (ts ++ us) := by
  unfold Scans at *
  rw [List.append_assoc, hfront, htext, Position.after_append]
  cases scan ((p.after front).after text) rest with
  | error defect => rfl
  | ok others => simp [Except.map]

/-- No text holds no tokens. -/
theorem Scans.nil : Scans p [] rest [] := by
  rw [Scans, List.nil_append, Position.after_nil]
  cases scan p rest with
  | error defect => rfl
  | ok others => rfl

/-- A blank holds no token. -/
theorem Scans.blank (hblank : isBlank c = true) : Scans p [c] rest [] := by
  rw [Scans, List.singleton_append, scan, if_pos hblank]
  cases hscan : scan ((p.after [c])) rest with
  | error defect => exact hscan
  | ok others => exact hscan

/-- Blanks hold no tokens. -/
theorem Scans.allBlank (h : ∀ c ∈ text, isBlank c = true) : Scans p text rest [] := by
  induction text generalizing p with
  | nil => exact .nil
  | cons c text ih =>
    rw [List.forall_mem_cons] at h
    exact (Scans.blank h.1).append (ih h.2)

/-- A token that takes all of a text and nothing behind it. -/
theorem Scans.token (hblank : isBlank c = false)
    (hfront : front c (more ++ rest) = .ok (kind, more.length)) :
    Scans p (c :: more) rest [⟨kind, String.ofList (c :: more), p⟩] := by
  rw [Scans, List.cons_append, scan, if_neg (by simp [hblank]), hfront]
  simp only [List.take_left, List.drop_left]
  cases scan (p.after (c :: more)) rest with
  | error defect => rfl
  | ok others => rfl

/-- At the end of a text, its tokens are followed by one for the end. -/
theorem Scans.scan_eq (h : Scans p text [] ts) :
    scan p text = .ok (ts ++ [⟨.eof, "", p.after text⟩]) := by
  rw [Scans, List.append_nil] at h
  rw [h, scan]
  rfl

end Scans

/-- Nothing that goes on with a name stands in front of a text. -/
def Breaks (rest : List Char) : Prop :=
  ∀ c ∈ rest.head?, isNamePart c = false

/-- Nothing that goes on with a name or a number stands in front of a text. -/
def Stops (rest : List Char) : Prop :=
  ∀ c ∈ rest.head?, c = ' ' ∨ c = ')' ∨ c = ','

/-- What no number can go on with, no name can go on with. -/
theorem Stops.breaks {rest : List Char} (h : Stops rest) : Breaks rest := by
  intro c hc
  rcases h c hc with rfl | rfl | rfl <;> decide

/-- At the end of a text no number goes on. -/
theorem Stops.nil : Stops [] := by
  intro c hc
  cases hc

section Runs

variable {q : Char → Bool} {more rest : List Char}

/-- The longest run at the front of a text ends where the characters do. -/
theorem runLength_append (hmore : ∀ c ∈ more, q c = true) (hrest : ∀ c ∈ rest.head?, q c = false) :
    runLength q (more ++ rest) = more.length := by
  rw [runLength, List.takeWhile_append_of_pos hmore]
  cases rest with
  | nil => simp
  | cons c rest => simp [hrest c rfl]

/-- All characters of a run pass the test of the run. -/
theorem mem_take_runLength {c : Char} {text : List Char} (h : c ∈ text.take (runLength q text)) :
    q c = true := by
  rw [runLength, ← List.prefix_iff_eq_take.1 (List.takeWhile_prefix q)] at h
  exact List.all_eq_true.1 List.all_takeWhile c h

end Runs

/-- Whether a text is read as an identifier: it has the characters of a name and is no other
word. -/
structure IsName (text : String) : Prop where
  spelled : ∃ c more, text = String.ofList (c :: more) ∧ isNameStart c = true ∧
    ∀ d ∈ more, isNamePart d = true
  free : wordKind text = .identifier

/-- A name does not start with a blank. -/
theorem isBlank_of_isNameStart {c : Char} (h : isNameStart c = true) : isBlank c = false := by
  cases hblank : isBlank c with
  | false => rfl
  | true =>
    simp only [isBlank, Bool.or_eq_true, decide_eq_true_eq] at hblank
    rcases hblank with ((rfl | rfl) | rfl) | rfl <;> revert h <;> decide

/-- A word is one token, of the kind of the word. -/
theorem Scans.word {p : Position} {c : Char} {more rest : List Char} (hstart : isNameStart c = true)
    (hmore : ∀ d ∈ more, isNamePart d = true) (hrest : Breaks rest) :
    Scans p (c :: more) rest
      [⟨wordKind (String.ofList (c :: more)), String.ofList (c :: more), p⟩] := by
  refine .token (isBlank_of_isNameStart hstart) ?_
  simp [front, hstart, runLength_append hmore hrest]

/-- A name is read as one token, if no part of a name stands behind it. -/
theorem Scans.name {p : Position} {text : String} {rest : List Char} (h : IsName text)
    (hrest : Breaks rest) : Scans p text.toList rest [⟨.identifier, text, p⟩] := by
  obtain ⟨⟨c, more, rfl, hstart, hmore⟩, hfree⟩ := h
  have hword := Scans.word hstart hmore hrest (p := p)
  rw [hfree] at hword
  rwa [String.toList_ofList]

section Numbers

variable {p : Position} {digits rest : List Char}

/-- Digits are one whole number. -/
theorem number_append (hdigits : ∀ c ∈ digits, c.isDigit = true) (hrest : Stops rest) :
    number (digits ++ rest) = (.integer, digits.length) := by
  have hwhole : runLength Char.isDigit (digits ++ rest) = digits.length := by
    refine runLength_append hdigits fun c hc => ?_
    rcases hrest c hc with rfl | rfl | rfl <;> decide
  have hfraction : fractionLength rest = 0 := by
    cases rest with
    | nil => rfl
    | cons c rest => rcases hrest c rfl with rfl | rfl | rfl <;> rfl
  have hexponent : exponentLength rest = 0 := by
    cases rest with
    | nil => rfl
    | cons c rest => rcases hrest c rfl with rfl | rfl | rfl <;> rfl
  simp only [number, hwhole, List.drop_left, hfraction, Nat.add_zero, hexponent]
  cases rest with
  | nil => rfl
  | cons c rest => rcases hrest c rfl with rfl | rfl | rfl <;> rfl

/-- A digit starts nothing but a number. -/
theorem not_isNameStart_of_isDigit {c : Char} (h : c.isDigit = true) : isNameStart c = false := by
  simp only [Char.isDigit, Bool.and_eq_true, decide_eq_true_eq] at h
  have hhigh : c.val.toNat ≤ 57 := by simpa [UInt32.le_iff_toNat_le] using h.2
  cases hstart : isNameStart c with
  | false => rfl
  | true =>
    simp only [isNameStart, Char.isAlpha, Char.isUpper, Char.isLower, Bool.or_eq_true,
      Bool.and_eq_true, decide_eq_true_eq] at hstart
    rcases hstart with (hupper | hlower) | rfl
    · have hlow : 65 ≤ c.val.toNat := by simpa [UInt32.le_iff_toNat_le] using hupper.1
      omega
    · have hlow : 97 ≤ c.val.toNat := by simpa [UInt32.le_iff_toNat_le] using hlower.1
      omega
    · revert hhigh
      decide

/-- A name does not start with a digit. -/
theorem not_isDigit_of_isNameStart {c : Char} (h : isNameStart c = true) : c.isDigit = false := by
  cases hdigit : c.isDigit with
  | false => rfl
  | true =>
    rw [not_isNameStart_of_isDigit hdigit] at h
    cases h

/-- A digit is no blank. -/
theorem not_isBlank_of_isDigit {c : Char} (h : c.isDigit = true) : isBlank c = false := by
  cases hblank : isBlank c with
  | false => rfl
  | true =>
    simp only [isBlank, Bool.or_eq_true, decide_eq_true_eq] at hblank
    rcases hblank with ((rfl | rfl) | rfl) | rfl <;> revert h <;> decide

/-- Digits that are taken as a whole number are one token. -/
theorem Scans.integer (hne : digits ≠ []) (hdigits : ∀ c ∈ digits, c.isDigit = true)
    (hnumber : number (digits ++ rest) = (.integer, digits.length)) :
    Scans p digits rest [⟨.integer, String.ofList digits, p⟩] := by
  cases digits with
  | nil => exact absurd rfl hne
  | cons c more =>
    have hdigit : c.isDigit = true := hdigits c (by simp)
    rw [List.cons_append] at hnumber
    refine .token (not_isBlank_of_isDigit hdigit) ?_
    simp [front, not_isNameStart_of_isDigit hdigit, hdigit, hnumber]

/-- Digits are read as one number, if no number goes on behind them. -/
theorem Scans.wholeNumber (hne : digits ≠ []) (hdigits : ∀ c ∈ digits, c.isDigit = true)
    (hrest : Stops rest) : Scans p digits rest [⟨.integer, String.ofList digits, p⟩] :=
  .integer hne hdigits (number_append hdigits hrest)

end Numbers

section Marks

variable {p : Position} {rest : List Char}

/-- An opening parenthesis is read as one, whatever stands behind it. -/
theorem Scans.openParen : Scans p ['('] rest [⟨.openParen, "(", p⟩] :=
  .token rfl (by cases rest <;> rfl)

/-- A closing parenthesis is read as one, whatever stands behind it. -/
theorem Scans.closeParen : Scans p [')'] rest [⟨.closeParen, ")", p⟩] :=
  .token rfl (by cases rest <;> rfl)

/-- A comma is read as one, whatever stands behind it. -/
theorem Scans.comma : Scans p [','] rest [⟨.comma, ",", p⟩] :=
  .token rfl (by cases rest <;> rfl)

/-- A point that no digit follows is no number. -/
theorem Scans.dot (hrest : ∀ c ∈ rest.head?, c.isDigit = false) :
    Scans p ['.'] rest [⟨.dot, ".", p⟩] := by
  refine .token rfl ?_
  cases rest with
  | nil => rfl
  | cons c rest =>
    have hdigit : c.isDigit = false := hrest c rfl
    have hstart : isNameStart '.' = false := rfl
    simp only [List.nil_append, front, hstart, Bool.false_eq_true, if_false, List.head?_cons,
      Option.map_some, hdigit]
    rfl

/-- A binary operator reads as itself between blanks. -/
theorem Scans.operator (op : BinaryOp) :
    Scans p op.symbol.toList (' ' :: rest) [⟨.operator op, op.symbol, p⟩] := by
  rcases op with op | op | op <;> cases op <;> exact .token rfl rfl

/-- A step is read as one, whatever stands behind it. -/
theorem Scans.step (op : StepOp) : Scans p op.symbol.toList rest [⟨.step op, op.symbol, p⟩] := by
  cases op <;> exact .token rfl rfl

/-- The kind of token that a unary operator is. -/
def unaryKind : UnaryOp → Kind
  | .plus => .operator (.arithmetic .add)
  | .minus => .operator (.arithmetic .sub)
  | .not => .bang

/-- A unary operator reads as itself unless a sign or an equal sign follows. -/
theorem Scans.unary (op : UnaryOp) (hrest : ∀ c ∈ rest.head?, c ≠ '+' ∧ c ≠ '-' ∧ c ≠ '=') :
    Scans p op.symbol.toList rest [⟨unaryKind op, op.symbol, p⟩] := by
  cases rest with
  | nil => cases op <;> exact .token rfl rfl
  | cons c rest =>
    obtain ⟨hplus, hminus, hequal⟩ := hrest c rfl
    have hpair : pairKind '+' c = none ∧ pairKind '-' c = none ∧ pairKind '!' c = none := by
      refine ⟨?_, ?_, ?_⟩ <;> unfold pairKind <;> split <;> simp_all
    have hmark : ∀ sign kind, pairKind sign c = none → markKind sign = some kind →
        mark sign (c :: rest) = .ok (kind, 0) := by
      intro sign kind hnone hkind
      simp [mark, hnone, hkind]
    cases op with
    | plus => exact .token rfl (hmark '+' _ hpair.1 rfl)
    | minus => exact .token rfl (hmark '-' _ hpair.2.1 rfl)
    | not => exact .token rfl (hmark '!' _ hpair.2.2 rfl)

end Marks

section Lexemes

variable {p : Position} {c : Char} {rest text : List Char} {kind : Kind} {length : Nat}

/-- The kinds of words. -/
def Kind.isWord : Kind → Bool
  | identifier | bool | type _ | keyword _ => true
  | _ => false

/-- The kinds of numbers. -/
def Kind.isNumber : Kind → Bool
  | integer | single | double => true
  | _ => false

/-- The kinds of operators and punctuation marks. -/
def Kind.isMark : Kind → Bool
  | operator _ | compound _ | bang | step _ | equal | dot => true
  | openParen | closeParen | openBracket | closeBracket | openBrace | closeBrace => true
  | comma | colon | semicolon => true
  | _ => false

/-- A name or a word of the language is a word. -/
theorem isWord_wordKind (text : String) : (wordKind text).isWord = true := by
  unfold wordKind
  repeat' split
  all_goals rfl

/-- What is read as a number is of a kind of numbers. -/
theorem isNumber_number (text : List Char) : (number text).1.isNumber = true := by
  simp only [number]
  split
  · rfl
  · rfl
  · dsimp only
    split <;> rfl

/-- What is read as a mark is of a kind of marks. -/
theorem isMark_of_mark (h : mark c rest = .ok (kind, length)) : kind.isMark = true := by
  unfold mark at h
  split at h
  · rename_i hkind
    cases h
    obtain ⟨d, -, hpair⟩ := Option.bind_eq_some_iff.1 hkind
    unfold pairKind at hpair
    split at hpair <;> cases hpair <;> rfl
  · split at h
    · rename_i hkind
      cases h
      unfold markKind at hkind
      split at hkind <;> cases hkind <;> rfl
    · cases h

/-- How the token at the front of a text is read. -/
inductive Front (c : Char) (rest : List Char) (kind : Kind) (length : Nat) : Prop
  | word (hstart : isNameStart c = true) (hlength : length = runLength isNamePart rest)
      (hkind : kind = wordKind (String.ofList (c :: rest.take length)))
  | number (hkind : kind.isNumber = true)
  | comment (hslash : c = '/') (hkind : kind = .comment)
  | quoted (hkind : kind = .string ∨ kind = .char)
  | unended (hkind : kind = .unknown) (hlength : length = rest.length)
  | mark (hmark : Token.mark c rest = .ok (kind, length))

/-- A quoted text is a token at the front, or a single quote is an unknown one. -/
theorem Front.of_quoted {quote : Char} {own : Kind} (hown : own = .string ∨ own = .char)
    (h : Token.quoted quote own rest = (kind, length)) : Front c rest kind length := by
  unfold Token.quoted at h
  split at h <;> cases h
  · exact .quoted hown
  · exact .unended rfl rfl

/-- Whatever token stands at the front, its kind and its characters fit each other. One case for
each branch of the lexer, of which every other fact about single tokens is drawn. -/
theorem Front.of_front (h : front c rest = .ok (kind, length)) : Front c rest kind length := by
  unfold front at h
  split at h
  · rename_i hstart
    cases h
    exact .word hstart rfl rfl
  split at h
  · cases h
    exact .number (isNumber_number _)
  split at h
  · cases hradix : radixNumber rest <;> rw [hradix] at h <;> cases h
    exact .number rfl
  split at h
  · rename_i hline
    cases h
    exact .comment (by simpa using hline : c = '/' ∧ _).1 rfl
  split at h
  · rename_i hblock
    simp only [blockComment, Except.ok.injEq] at h
    split at h <;> cases h
    · exact .comment (by simpa using hblock : c = '/' ∧ _).1 rfl
    · exact .unended rfl rfl
  split at h
  · exact .of_quoted (.inl rfl) (Except.ok.inj h)
  split at h
  · exact .of_quoted (.inr rfl) (Except.ok.inj h)
  · exact .mark h

/-- Words start as names do, and reach as far as a name does. -/
theorem word_of_front (hword : kind.isWord = true) (h : front c rest = .ok (kind, length)) :
    isNameStart c = true ∧ length = runLength isNamePart rest ∧
      wordKind (String.ofList (c :: rest.take length)) = kind := by
  cases Front.of_front h with
  | word hstart hlength hkind => exact ⟨hstart, hlength, hkind.symm⟩
  | number hkind => cases kind <;> cases hword <;> cases hkind
  | comment hslash hkind => rw [hkind] at hword; cases hword
  | quoted hkind => rcases hkind with rfl | rfl <;> cases hword
  | unended hkind hlength => rw [hkind] at hword; cases hword
  | mark hmark =>
    have hkind := isMark_of_mark hmark
    cases kind <;> cases hword <;> cases hkind

/-- Operators and punctuation marks are read as such. -/
theorem mark_of_front (hmark : kind.isMark = true) (h : front c rest = .ok (kind, length)) :
    mark c rest = .ok (kind, length) := by
  cases Front.of_front h with
  | word hstart hlength hkind =>
    have hword := isWord_wordKind (String.ofList (c :: rest.take length))
    rw [← hkind] at hword
    cases kind <;> cases hmark <;> cases hword
  | number hkind => cases kind <;> cases hmark <;> cases hkind
  | comment hslash hkind => rw [hkind] at hmark; cases hmark
  | quoted hkind => rcases hkind with rfl | rfl <;> cases hmark
  | unended hkind hlength => rw [hkind] at hmark; cases hmark
  | mark hmark => exact hmark

/-- A comment starts with a slash. -/
theorem slash_of_front (h : front c rest = .ok (.comment, length)) : c = '/' := by
  cases Front.of_front h with
  | word hstart hlength hkind =>
    have hword := isWord_wordKind (String.ofList (c :: rest.take length))
    rw [← hkind] at hword
    cases hword
  | number hkind => cases hkind
  | comment hslash hkind => exact hslash
  | quoted hkind => rcases hkind with hkind | hkind <;> cases hkind
  | unended hkind hlength => cases hkind
  | mark hmark => exact absurd (isMark_of_mark hmark) (by decide)

/-- `Scanned p text ts`: the text that starts at `p` reads as `ts`, up to its end. Each rule is one
way in which reading goes on. -/
inductive Scanned : Position → List Char → List Token → Prop
  /-- The end of the text is a token. -/
  | nil (p : Position) : Scanned p [] [⟨.eof, "", p⟩]
  /-- A blank stands between tokens. -/
  | blank {p c rest ts} (hblank : isBlank c = true) (hrest : Scanned (p.next c) rest ts) :
      Scanned p (c :: rest) ts
  /-- What stands at the front is a token, behind which reading goes on. -/
  | token {p c rest kind more ts} (hblank : isBlank c = false)
      (hfront : front c rest = .ok (kind, more))
      (hothers : Scanned (p.after (c :: rest.take more)) (rest.drop more) ts) :
      Scanned p (c :: rest) (⟨kind, String.ofList (c :: rest.take more), p⟩ :: ts)

/-- A text that reads as tokens does so token by token. -/
theorem Scanned.of_scan {ts : List Token} (h : scan p text = .ok ts) : Scanned p text ts := by
  fun_induction scan p text generalizing ts with
  | case1 p =>
    cases h
    exact .nil p
  | case2 p c rest hblank ih => exact .blank hblank (ih h)
  | case3 => cases h
  | case4 => cases h
  | case5 p c rest hblank kind more hfront lexeme others hothers =>
    rename_i ih
    cases h
    exact .token (Bool.eq_false_iff.2 hblank) hfront (ih hothers)

/-- What is read token by token is what the text reads as. -/
theorem Scanned.scan_eq {ts : List Token} (h : Scanned p text ts) : scan p text = .ok ts := by
  induction h with
  | nil p => rw [scan]
  | blank hblank _ ih => rw [scan, if_pos hblank, ih]
  | token hblank hfront _ ih => simp only [scan, hblank, hfront, ih, Bool.false_eq_true, if_false]

/-- The identifiers of a text are names. -/
theorem isName_of_mem_scan {ts : List Token} (h : scan p text = .ok ts) :
    ∀ t ∈ ts, t.kind = .identifier → IsName t.lexeme := by
  have hscanned := Scanned.of_scan h
  clear h
  induction hscanned with
  | nil p => simp
  | blank _ _ ih => exact ih
  | @token p c rest kind more others _ hfront _ ih =>
    rw [List.forall_mem_cons]
    refine ⟨fun hkind => ?_, ih⟩
    dsimp only at hkind
    subst hkind
    obtain ⟨hstart, rfl, hword⟩ := word_of_front rfl hfront
    exact ⟨⟨c, _, rfl, hstart, fun d hd => mem_take_runLength hd⟩, hword⟩

end Lexemes

end Token

namespace Number

/-- Digits have the value that they denote. -/
theorem foldDigits_eq {digits : List Char} (h : ∀ c ∈ digits, c.isDigit = true) (value : Nat) :
    foldDigits 10 value digits = some (Nat.ofDigitChars 10 digits value) := by
  induction digits generalizing value with
  | nil => simp [foldDigits]
  | cons c digits ih =>
    rw [List.forall_mem_cons] at h
    have hdigit : c.toNat - '0'.toNat < 10 := by
      have hc := h.1
      simp only [Char.isDigit, Bool.and_eq_true, decide_eq_true_eq] at hc
      have hhigh : c.val.toNat ≤ 57 := by simpa [UInt32.le_iff_toNat_le] using hc.2
      show c.val.toNat - 48 < 10
      omega
    rw [foldDigits, digitValue?, if_pos h.1]
    simp only [if_pos hdigit]
    rw [ih h.2, Nat.ofDigitChars_cons]

/-- A number of at most 64 bits is read back from its decimal notation, with the narrowest type that
holds it. -/
theorem ofLexeme_toDigits {n : Nat} (h : Primitive.u64.holdsInteger n = true) :
    ofLexeme .integer (String.ofList (Nat.toDigits 10 n)) = ofNat n := by
  have hdigits : ∀ c ∈ Nat.toDigits 10 n, c.isDigit = true := fun c hc =>
    Nat.isDigit_of_mem_toDigits (by decide) (by decide) hc
  have hread : readNat? 10 (Nat.toDigits 10 n) = some n := by
    cases hlist : Nat.toDigits 10 n with
    | nil => exact absurd hlist Nat.toDigits_ne_nil
    | cons c digits =>
      have hplus : c ≠ '+' := by
        rintro rfl
        exact absurd (hdigits '+' (by simp [hlist])) (by decide)
      rw [← hlist]
      have hhead : (Nat.toDigits 10 n).head? ≠ some '+' := by simpa [hlist] using hplus
      simp [readNat?, if_neg hhead, foldDigits_eq hdigits, h]
  have hvalue : integerValue (Nat.toDigits 10 n) = n := by
    unfold integerValue
    split
    · rename_i hlist
      exact absurd (hdigits '#' (by simp [hlist])) (by decide)
    · rename_i hlist
      exact absurd (hdigits '#' (by simp [hlist])) (by decide)
    · rw [hread]
      rfl
  simp [ofLexeme, hvalue]

end Number

end Sprout
