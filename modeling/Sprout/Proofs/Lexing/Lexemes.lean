import Sprout.Proofs.Lexing.Numerals

namespace Sprout.Token

/-- A blank, or nothing at all, stands in front of a text. -/
def Spaced (rest : List Char) : Prop :=
  ∀ c ∈ rest.head?, isBlank c = true

/-- At the end of a text, a token has ended. -/
theorem Spaced.nil : Spaced [] := by
  intro c hc
  cases hc

/-- In front of a blank, a token has ended. -/
theorem Spaced.blank {c : Char} {rest : List Char} (h : isBlank c = true) : Spaced (c :: rest) := by
  intro d hd
  cases hd
  exact h

/-- There are four blanks. -/
theorem isBlank_cases {c : Char} (h : isBlank c = true) :
    c = ' ' ∨ c = '\t' ∨ c = '\r' ∨ c = '\n' := by
  simpa [isBlank, or_assoc] using h

/-- No name goes on where a token has ended. -/
theorem Spaced.breaks {rest : List Char} (h : Spaced rest) : Breaks rest := by
  intro c hc
  rcases isBlank_cases (h c hc) with rfl | rfl | rfl | rfl <;> decide

/-- No number goes on where a token has ended. -/
theorem Spaced.endsNumber {rest : List Char} (h : Spaced rest) : EndsNumber rest := by
  intro c hc
  rcases isBlank_cases (h c hc) with rfl | rfl | rfl | rfl <;> decide

variable {c : Char} {rest rest' : List Char} {kind : Kind} {more : Nat}

/-- The longest run at the front of a text stays the same where the text is cut behind it. -/
theorem runLength_take {p : Char → Bool} {text : List Char}
    (hrest : ∀ d ∈ rest'.head?, p d = false) :
    runLength p (text.take (runLength p text) ++ rest') = runLength p text := by
  rw [runLength_append (take_runLength p) hrest, List.length_take_of_le (runLength_le p text)]

/-- A quoted text ends where it ends, whatever stands behind it. By induction along the scan: a
backslash takes the next character with it, and nothing else is looked ahead for. -/
theorem quotedLength_take {quote : Char} {text : List Char} {length : Nat}
    (h : quotedLength quote text = some length) :
    quotedLength quote (text.take length ++ rest') = some length ∧ length ≤ text.length := by
  fun_induction quotedLength quote text generalizing length with
  | case1 => cases h
  | case2 => cases h
  | case3 d text ih =>
    obtain ⟨inner, hinner, rfl⟩ := Option.map_eq_some_iff.1 h
    obtain ⟨htake, hle⟩ := ih hinner
    refine ⟨?_, by simp only [List.length_cons]; omega⟩
    rw [List.take_succ_cons, List.take_succ_cons, List.cons_append, List.cons_append, quotedLength,
      htake]
    rfl
  | case4 text hslash =>
    cases h
    refine ⟨?_, by simp⟩
    rw [List.take_succ_cons, List.take_zero, List.singleton_append, quotedLength, if_pos rfl]
    exact hslash
  | case5 d text hslash hquote ih =>
    obtain ⟨inner, hinner, rfl⟩ := Option.map_eq_some_iff.1 h
    obtain ⟨htake, hle⟩ := ih hinner
    refine ⟨?_, by simp only [List.length_cons]; omega⟩
    rw [List.take_succ_cons, List.cons_append, quotedLength, if_neg hquote, htake]
    · rfl
    · exact hslash

/-- The letter that marks a base, where it has one. -/
def radixLead : Radix → List Char
  | .octal => ['o']
  | .hexadecimal => []

/-- Behind a `#`, the digits of a base are taken as a whole, if nothing goes on with them. -/
theorem radixNumber_append {radix : Radix} {digits : List Char} (hne : digits ≠ [])
    (hdigits : ∀ d ∈ digits, radix.isDigit d = true) (hrest : Breaks rest)
    (hstop : ∀ d ∈ rest.head?, radix.isDigit d = false) :
    radixNumber (radixLead radix ++ digits ++ rest) =
      .ok ((radixLead radix).length + digits.length) := by
  have hrun := runLength_append hdigits hstop
  have hlength : digits.length ≠ 0 := by simpa using hne
  cases radix with
  | octal =>
    simp only [radixLead, List.cons_append, List.nil_append, radixNumber, List.head?_cons, if_true,
      List.drop_succ_cons, List.drop_zero, hrun, if_neg hlength, List.length_singleton]
    rw [Nat.add_comm, List.drop_succ_cons, List.drop_left]
    cases rest with
    | nil => rfl
    | cons d rest => simp [hrest d rfl]
  | hexadecimal =>
    have hhead : (digits ++ rest).head? ≠ some 'o' := by
      obtain ⟨d, others, rfl⟩ := List.exists_cons_of_ne_nil hne
      intro ho
      cases ho
      exact absurd (hdigits 'o' (by simp)) (by decide)
    simp only [radixLead, List.nil_append, radixNumber, hhead, if_false, List.drop_zero, hrun,
      if_neg hlength, List.length_nil, Nat.zero_add, List.drop_left]
    cases rest with
    | nil => rfl
    | cons d rest => simp [hrest d rfl]

/-- What is taken behind a `#` is the digits of a base, with the letter of the base in front where
it has one. There is at least one digit. -/
theorem exists_of_radixNumber {text : List Char} {length : Nat}
    (h : radixNumber text = .ok length) :
    length ≤ text.length ∧ ∃ radix digits, text.take length = radixLead radix ++ digits ∧
      digits ≠ [] ∧ ∀ d ∈ digits, Radix.isDigit radix d = true := by
  have hshape : ∃ radix rest, text = radixLead radix ++ rest ∧
      runLength (Radix.isDigit radix) rest ≠ 0 ∧
      length = (radixLead radix).length + runLength (Radix.isDigit radix) rest := by
    by_cases hoctal : text.head? = some 'o'
    · obtain ⟨rest, rfl⟩ := List.head?_eq_some_iff.1 hoctal
      refine ⟨.octal, rest, rfl, ?_⟩
      simp only [radixNumber, List.head?_cons, if_true, List.drop_succ_cons,
        List.drop_zero] at h
      split at h
      · cases h
      · rename_i hdigits
        refine ⟨hdigits, ?_⟩
        repeat' split at h
        all_goals cases h <;> rfl
    · refine ⟨.hexadecimal, text, rfl, ?_⟩
      simp only [radixNumber, hoctal, if_false, List.drop_zero] at h
      split at h
      · cases h
      · rename_i hdigits
        refine ⟨hdigits, ?_⟩
        repeat' split at h
        all_goals cases h <;> rfl
  obtain ⟨radix, rest, rfl, hdigits, rfl⟩ := hshape
  have hle := runLength_le (Radix.isDigit radix) rest
  refine ⟨by simp only [List.length_append]; omega, radix, rest.take _, List.take_length_add_append _, ?_,
    take_runLength _⟩
  intro hnil
  rcases List.take_eq_nil_iff.1 hnil with hzero | rfl
  · exact hdigits hzero
  · exact hdigits rfl

/-- A number with a radix is the same with anything behind it that no number goes on with. -/
theorem radixNumber_take {text : List Char} {length : Nat} (h : radixNumber text = .ok length)
    (hrest : Spaced rest') :
    radixNumber (text.take length ++ rest') = .ok length ∧ length ≤ text.length := by
  obtain ⟨hle, radix, digits, htake, hne, hdigits⟩ := exists_of_radixNumber h
  refine ⟨?_, hle⟩
  have hlength : (text.take length).length = length := List.length_take_of_le hle
  rw [htake, List.length_append] at hlength
  rw [htake, radixNumber_append hne hdigits hrest.breaks, hlength]
  intro d hd
  rcases isBlank_cases (hrest d hd) with rfl | rfl | rfl | rfl <;> cases radix <;> decide

/-- No mark of two characters ends with a blank. -/
theorem pairKind_blank {d : Char} (hd : isBlank d = true) : pairKind c d = none := by
  rcases isBlank_cases hd with rfl | rfl | rfl | rfl <;> unfold pairKind <;> split <;> simp_all

/-- The front of a text that is cut and followed by a blank. -/
theorem head?_take_append {text : List Char} {length : Nat} (rest' : List Char)
    (hle : length ≤ text.length) :
    (text.take length ++ rest').head? = if length = 0 then rest'.head? else text.head? := by
  cases length with
  | zero => simp
  | succ length =>
    cases text with
    | nil => simp at hle
    | cons d text => simp

/-- A mark is the same with anything behind it that no token goes on with. -/
theorem mark_take (h : mark c rest = .ok (kind, more)) (hrest : Spaced rest') :
    mark c (rest.take more ++ rest') = .ok (kind, more) ∧ more ≤ rest.length := by
  unfold mark at h
  split at h
  · rename_i pair hpair
    cases h
    obtain ⟨d, hd, hkind⟩ := Option.bind_eq_some_iff.1 hpair
    obtain ⟨others, rfl⟩ := List.head?_eq_some_iff.1 hd
    simp [mark, hkind]
  · split at h
    · rename_i own hown
      cases h
      have hnone : rest'.head?.bind (pairKind c) = none := by
        cases hhead : rest'.head? with
        | none => rfl
        | some d => exact pairKind_blank (hrest d hhead)
      simp [mark, hnone, hown]
    · cases h

/-- A digit, or a point before a digit, at the front of a number belongs to it. -/
theorem number_pos {length : Nat} (h : number (c :: rest) = (kind, length)) :
    (c.isDigit = true → 1 ≤ length) ∧
      (c = '.' → (rest.head?.map Char.isDigit).getD false = true → 2 ≤ length) := by
  have hwhole : c.isDigit = true → 1 ≤ runLength Char.isDigit (c :: rest) := by
    intro hdigit
    simp [runLength, hdigit]
  have hfraction : c = '.' → (rest.head?.map Char.isDigit).getD false = true →
      2 ≤ runLength Char.isDigit (c :: rest) +
        fractionLength ((c :: rest).drop (runLength Char.isDigit (c :: rest))) := by
    rintro rfl hdigit
    cases rest with
    | nil => cases hdigit
    | cons d rest =>
      have hd : d.isDigit = true := by simpa using hdigit
      have hzero : runLength Char.isDigit ('.' :: d :: rest) = 0 := rfl
      simp only [hzero, List.drop_zero, fractionLength, hd, if_true]
      omega
  simp only [number] at h
  constructor
  · intro hdigit
    have hpos := hwhole hdigit
    split at h <;> cases h <;> omega
  · intro hpoint hdigit
    have hpos := hfraction hpoint hdigit
    split at h <;> cases h <;> omega

/-- A number is the same with anything behind it that no token goes on with. -/
theorem front_number_take (hstart : isNameStart c = false)
    (hnumeric : (c.isDigit || (c = '.' && (rest.head?.map Char.isDigit).getD false)) = true)
    (h : number (c :: rest) = (kind, more)) (hrest : Spaced rest') :
    front c (rest.take (more - 1) ++ rest') = .ok (kind, more - 1) ∧ more - 1 ≤ rest.length := by
  obtain ⟨hdigit, hpoint⟩ := number_pos h
  obtain ⟨hle, -⟩ := parts_of_number h
  simp only [List.length_cons] at hle
  have hle' : more - 1 ≤ rest.length := by omega
  simp only [Bool.or_eq_true, Bool.and_eq_true, decide_eq_true_eq] at hnumeric
  have hpos : 1 ≤ more := by
    rcases hnumeric with hnumeric | hnumeric
    · exact hdigit hnumeric
    · have := hpoint hnumeric.1 hnumeric.2
      omega
  have hagain : (c.isDigit || (c = '.' &&
      ((rest.take (more - 1) ++ rest').head?.map Char.isDigit).getD false)) = true := by
    rcases hnumeric with hnumeric | hnumeric
    · simp [hnumeric]
    · have hlong := hpoint hnumeric.1 hnumeric.2
      simp [head?_take_append _ hle', show more - 1 ≠ 0 by omega, hnumeric]
  have htake : (c :: rest).take more = c :: rest.take (more - 1) := by
    obtain ⟨n, rfl⟩ : ∃ n, more = n + 1 := ⟨more - 1, by omega⟩
    rfl
  have hnumber := number_take h hrest.endsNumber
  rw [htake, List.cons_append] at hnumber
  refine ⟨?_, hle'⟩
  rw [front, if_neg (by simp [hstart]), if_pos hagain, hnumber]

/-- A quoted text is the same whatever stands behind it, unless it lacks its end. -/
theorem quoted_take {quote : Char} {own : Kind} (rest' : List Char)
    (h : quoted quote own rest = (kind, more)) (hunknown : kind ≠ .unknown) :
    quoted quote own (rest.take more ++ rest') = (kind, more) ∧ more ≤ rest.length := by
  unfold quoted at h
  split at h
  · rename_i length hlength
    cases h
    obtain ⟨htake, hle⟩ := quotedLength_take hlength
    exact ⟨by rw [quoted, htake], hle⟩
  · cases h
    exact absurd rfl hunknown

/-- A mark stays one where the text is cut behind it and a blank follows. -/
theorem front_mark_take (hstart : isNameStart c = false)
    (hnumeric : (c.isDigit || (c = '.' && (rest.head?.map Char.isDigit).getD false)) = false)
    (hhash : c ≠ '#') (hline : ¬ (c = '/' ∧ rest.head? = some '/'))
    (hblock : ¬ (c = '/' ∧ rest.head? = some '*')) (hdouble : c ≠ '"') (hsingle : c ≠ '\'')
    (h : mark c rest = .ok (kind, more)) (hrest : Spaced rest') :
    front c (rest.take more ++ rest') = .ok (kind, more) ∧ more ≤ rest.length := by
  obtain ⟨hmark, hle⟩ := mark_take h hrest
  have hblank : ∀ d, rest'.head? = some d → d.isDigit = false ∧ d ≠ '/' ∧ d ≠ '*' := by
    intro d hd
    rcases isBlank_cases (hrest d hd) with rfl | rfl | rfl | rfl <;> decide
  have hdigit : c.isDigit = false := (Bool.or_eq_false_iff.1 hnumeric).1
  have hhead := head?_take_append rest' hle
  have hagain : (c.isDigit || (c = '.' &&
      ((rest.take more ++ rest').head?.map Char.isDigit).getD false)) = false := by
    rw [hhead]
    split
    · cases hrest' : rest'.head? with
      | none => simp [hdigit]
      | some d => simp [hdigit, (hblank d hrest').1]
    · exact hnumeric
  have hcomment : ∀ d, d = '/' ∨ d = '*' → c = '/' → (rest.take more ++ rest').head? ≠ some d := by
    intro d hd hslash
    rw [hhead]
    split
    · intro hsome
      obtain ⟨-, hnot, hnot'⟩ := hblank d hsome
      rcases hd with rfl | rfl
      · exact hnot rfl
      · exact hnot' rfl
    · intro hsome
      rcases hd with rfl | rfl
      · exact hline ⟨hslash, hsome⟩
      · exact hblock ⟨hslash, hsome⟩
  refine ⟨?_, hle⟩
  rw [front, if_neg (by simp [hstart]), if_neg (Bool.eq_false_iff.1 hagain), if_neg hhash, if_neg, if_neg,
    if_neg hdouble, if_neg hsingle, hmark]
  · simpa using hcomment '*' (.inr rfl)
  · simpa using hcomment '/' (.inl rfl)

/-- What stands at the front of a text stands there also in front of a blank, comments and tokens
without an end aside. -/
theorem front_take (h : front c rest = .ok (kind, more)) (hcomment : kind ≠ .comment)
    (hunknown : kind ≠ .unknown) (hrest : Spaced rest') :
    front c (rest.take more ++ rest') = .ok (kind, more) ∧ more ≤ rest.length := by
  unfold front at h
  split at h
  · rename_i hstart
    cases h
    have hle := runLength_le isNamePart rest
    simp [front, hstart, runLength_take hrest.breaks, hle]
  · rename_i hstart
    split at h
    · rename_i hnumeric
      cases h
      exact front_number_take (by simpa using hstart) hnumeric rfl hrest
    · rename_i hnumeric
      split at h
      · rename_i hhash
        subst hhash
        cases hradix : radixNumber rest with
        | error cause => rw [hradix] at h; cases h
        | ok length =>
          rw [hradix] at h
          cases h
          obtain ⟨htake, hle⟩ := radixNumber_take hradix hrest
          exact ⟨by simp [front, isNameStart, htake, Except.map], hle⟩
      · rename_i hhash
        split at h
        · cases h
          exact absurd rfl hcomment
        · rename_i hline
          split at h
          · simp only [Except.ok.injEq, blockComment] at h
            split at h <;> cases h
            · exact absurd rfl hcomment
            · exact absurd rfl hunknown
          · rename_i hblock
            split at h
            · rename_i hdouble
              subst hdouble
              obtain ⟨hquoted, hle⟩ := quoted_take rest' (Except.ok.inj h) hunknown
              exact ⟨by rw [← hquoted]; rfl, hle⟩
            · rename_i hdouble
              split at h
              · rename_i hsingle
                subst hsingle
                obtain ⟨hquoted, hle⟩ := quoted_take rest' (Except.ok.inj h) hunknown
                exact ⟨by rw [← hquoted]; rfl, hle⟩
              · rename_i hsingle
                exact front_mark_take (by simpa using hstart) (by simpa using hnumeric) hhash
                  (by simpa using hline) (by simpa using hblock) hdouble hsingle h hrest

/-- Whether a token can be written down by itself: in front of a blank, its lexeme reads as it. -/
def Standalone (t : Token) : Prop :=
  ∃ c more, t.lexeme = String.ofList (c :: more) ∧ isBlank c = false ∧
    ∀ rest, Spaced rest → front c (more ++ rest) = .ok (t.kind, more.length)

/-- A token that can be written by itself is read wherever its lexeme stands, if a blank or the end
of the text follows. -/
theorem Standalone.scans {t : Token} {p : Position} {rest : List Char} (h : t.Standalone)
    (hrest : Spaced rest) : Scans p t.lexeme.toList rest [{ t with position := p }] := by
  obtain ⟨c, more, hlexeme, hblank, hfront⟩ := h
  have htoken := Scans.token (p := p) hblank (hfront rest hrest)
  rwa [← hlexeme, ← String.toList_ofList (l := c :: more), ← hlexeme] at htoken

/-- Every token of a text can be written down by itself, except for comments, for what lacks its
end, and for the end of the text. It is read the same wherever its lexeme stands in front of a
blank. -/
theorem standalone_of_mem_scan {p : Position} {text : List Char} {ts : List Token}
    (h : scan p text = .ok ts) :
    ∀ t ∈ ts, t.kind ≠ .eof → t.kind ≠ .comment → t.kind ≠ .unknown → t.Standalone := by
  have hscanned := Scanned.of_scan h
  clear h
  induction hscanned with
  | nil p => simp
  | blank _ _ ih => exact ih
  | @token p c rest kind more others hblank hfront _ ih =>
    rw [List.forall_mem_cons]
    refine ⟨fun _ hcomment hunknown => ?_, ih⟩
    refine ⟨c, rest.take more, rfl, hblank, fun rest' hrest => ?_⟩
    obtain ⟨htake, hle⟩ := front_take hfront hcomment hunknown hrest
    rw [htake, List.length_take_of_le hle]

/-- So can every token that takes part in a program and has its end. -/
theorem standalone_of_isSignificant {p : Position} {text : List Char} {ts : List Token} {t : Token}
    (h : scan p text = .ok ts) (ht : t ∈ ts) (hsignificant : t.isSignificant = true)
    (hunknown : t.kind ≠ .unknown) : t.Standalone := by
  simp only [isSignificant, Bool.and_eq_true, decide_eq_true_eq] at hsignificant
  exact standalone_of_mem_scan h t ht hsignificant.2 hsignificant.1 hunknown

end Sprout.Token
