import Sprout.Proofs.Lexing.Tiling

namespace Sprout

namespace Token

section Cuts

/-- The characters that end what stands in front of them: the slash that starts a comment, and a
blank. Outside quotes reading never gets past one. -/
def Cuts (d : Char) : Prop :=
  d = '/' ∨ d = ' '

variable {c d : Char} {q x : List Char} {kind : Kind} {more : Nat}

/-- No name and no number goes on with a character that cuts. -/
theorem Cuts.notPart (hd : Cuts d) : isNamePart d = false ∧ d.isDigit = false := by
  rcases hd with rfl | rfl <;> decide

/-- A run of characters ends where one follows that is none of them. -/
theorem runLength_cut {p : Char → Bool} (hd : p d = false) :
    runLength p (q ++ d :: x) = runLength p q := by
  rw [runLength, runLength, List.takeWhile_append, List.takeWhile_cons_of_neg (by simp [hd])]
  split
  · rename_i hall
    rw [List.append_nil, hall]
  · rfl

/-- A fraction is found without a look past such a character. -/
theorem fractionLength_cut (hd : Cuts d) : fractionLength (q ++ d :: x) = fractionLength q := by
  have hdigit := hd.notPart.2
  have hpoint : d ≠ '.' := by rcases hd with rfl | rfl <;> decide
  rcases q with _ | ⟨a, _ | ⟨b, rest⟩⟩
  · simp [fractionLength, hpoint]
  · by_cases ha : a = '.'
    · subst ha
      simp [fractionLength, hdigit]
    · simp [fractionLength, ha]
  · by_cases ha : a = '.'
    · subst ha
      simp only [List.cons_append, fractionLength, runLength_cut hdigit]
    · simp [fractionLength, ha]

/-- An exponent is found without a look past such a character. -/
theorem exponentLength_cut (hd : Cuts d) : exponentLength (q ++ d :: x) = exponentLength q := by
  have hdigit := hd.notPart.2
  have hletter : (d ≠ 'e' ∧ d ≠ 'E') ∧ d ≠ '+' ∧ d ≠ '-' := by
    rcases hd with rfl | rfl <;> decide
  rcases q with _ | ⟨e, rest⟩
  · simp [exponentLength, hletter.1]
  · by_cases he : e = 'e' ∨ e = 'E'
    · rcases rest with _ | ⟨sign, rest⟩
      · simp [exponentLength, he, hletter.2, runLength, hdigit]
      · have hrest : runLength Char.isDigit (rest ++ d :: x) = runLength Char.isDigit rest :=
          runLength_cut hdigit
        have hall : runLength Char.isDigit (sign :: (rest ++ d :: x)) =
            runLength Char.isDigit (sign :: rest) := by
          rw [← List.cons_append]
          exact runLength_cut hdigit
        by_cases hsign : sign = '+' ∨ sign = '-'
        · simp [exponentLength, he, hsign, hrest]
        · simp [exponentLength, he, hsign, hall]
    · simp [exponentLength, he]

/-- What is skipped stands in front of the character. -/
theorem drop_cut {n : Nat} (hn : n ≤ q.length) : (q ++ d :: x).drop n = q.drop n ++ d :: x :=
  List.drop_append_of_le_length hn

/-- A number ends in front of a slash or a blank, for none of its parts holds either: not its
digits, its fraction, its exponent or its suffix. -/
theorem number_cut (hd : Cuts d) : number (q ++ d :: x) = number q := by
  have hwhole : runLength Char.isDigit (q ++ d :: x) = runLength Char.isDigit q :=
    runLength_cut hd.notPart.2
  obtain ⟨w, hw⟩ : ∃ w, w = runLength Char.isDigit q := ⟨_, rfl⟩
  have hwle : w ≤ q.length := hw ▸ runLength_le _ _
  obtain ⟨f, hf⟩ : ∃ f, f = fractionLength (q.drop w) := ⟨_, rfl⟩
  have hfle : w + f ≤ q.length := by
    have hle := (take_fractionLength (q.drop w)).2
    rw [← hf, List.length_drop] at hle
    omega
  obtain ⟨k, hk⟩ : ∃ k, k = exponentLength (q.drop (w + f)) := ⟨_, rfl⟩
  have hkle : w + f + k ≤ q.length := by
    have hle := (take_exponentLength (q.drop (w + f))).2
    rw [← hk, List.length_drop] at hle
    omega
  simp only [number, hwhole, ← hw, drop_cut hwle, fractionLength_cut hd, ← hf, drop_cut hfle,
    exponentLength_cut hd, ← hk, drop_cut hkle]
  cases q.drop (w + f + k) with
  | nil => rcases hd with rfl | rfl <;> rfl
  | cons a rest =>
    rw [List.cons_append]
    by_cases hsuffix : a = 'f' ∨ a = 'i'
    · rcases hsuffix with rfl | rfl <;> rfl
    · rw [not_or] at hsuffix
      simp [hsuffix]

/-- The digits of a base end in front of a slash or a blank. -/
theorem radixDigits_cut (hd : Cuts d) (radix : Radix) (q : List Char) :
    runLength radix.isDigit (q ++ d :: x) = runLength radix.isDigit q ∧
      (q ++ d :: x).drop (runLength radix.isDigit q) = q.drop (runLength radix.isDigit q) ++ d :: x := by
  have hdigit : Radix.isDigit radix d = false := by
    rcases hd with rfl | rfl <;> cases radix <;> decide
  exact ⟨runLength_cut hdigit, drop_cut (runLength_le _ q)⟩

/-- A number with a radix is found, or refused, without a look past such a character. -/
theorem radixNumber_cut (hd : Cuts d) : radixNumber (q ++ d :: x) = radixNumber q := by
  by_cases hoctal : q.head? = some 'o'
  · obtain ⟨rest, rfl⟩ := List.head?_eq_some_iff.1 hoctal
    obtain ⟨hrun, hdrop⟩ := radixDigits_cut (x := x) hd .octal rest
    have hshift : ∀ (n : Nat) (text : List Char), ('o' :: text).drop (1 + n) = text.drop n := by
      intro n text
      rw [Nat.add_comm, List.drop_succ_cons]
    simp only [List.cons_append, radixNumber, List.head?_cons, if_true, List.drop_succ_cons,
      List.drop_zero, hrun]
    rw [hshift, hshift, hdrop]
    cases rest.drop (runLength Radix.octal.isDigit rest) with
    | nil => simp [hd.notPart.1]
    | cons a rest => rfl
  · have hhead : (q ++ d :: x).head? ≠ some 'o' := by
      cases q with
      | nil => rcases hd with rfl | rfl <;> simp
      | cons a rest => exact hoctal
    obtain ⟨hrun, hdrop⟩ := radixDigits_cut (x := x) hd .hexadecimal q
    simp only [radixNumber, hoctal, hhead, if_false, List.drop_zero, hrun, Nat.zero_add, hdrop]
    cases q.drop (runLength Radix.hexadecimal.isDigit q) with
    | nil => simp [hd.notPart.1]
    | cons a rest => rfl

/-- No mark of two characters ends with a character that cuts. -/
theorem pairKind_cut (hd : Cuts d) : pairKind c d = none := by
  rcases hd with rfl | rfl <;> unfold pairKind <;> split <;> simp_all

/-- A mark is found without a look past such a character. -/
theorem mark_cut (hd : Cuts d) : mark c (q ++ d :: x) = mark c q := by
  cases q with
  | nil => simp [mark, pairKind_cut hd]
  | cons a rest => rfl

/-- What stands at the front of a text, quotes and comments aside, ends in front of a slash or a blank
as it does at the end of the text. -/
theorem front_cut (hd : Cuts d) (hquote : c ≠ '"' ∧ c ≠ '\'')
    (hcomment : c = '/' → (q ++ d :: x).head? ≠ some '/' ∧ (q ++ d :: x).head? ≠ some '*') :
    front c (q ++ d :: x) = front c q := by
  have hword : runLength isNamePart (q ++ d :: x) = runLength isNamePart q :=
    runLength_cut hd.notPart.1
  have htake : (q ++ d :: x).take (runLength isNamePart q) = q.take (runLength isNamePart q) :=
    List.take_append_of_le_length (runLength_le _ q)
  have hnumber : number (c :: (q ++ d :: x)) = number (c :: q) := by
    rw [← List.cons_append, number_cut hd]
  have hdigit : ((q ++ d :: x).head?.map Char.isDigit).getD false =
      (q.head?.map Char.isDigit).getD false := by
    cases q with
    | nil => exact hd.notPart.2
    | cons a rest => rfl
  have hslash : ∀ a, a = '/' ∨ a = '*' →
      (decide (c = '/') && decide ((q ++ d :: x).head? = some a)) = false ∧
        (decide (c = '/') && decide (q.head? = some a)) = false := by
    intro a ha
    have hnot : c = '/' → (q ++ d :: x).head? ≠ some a := by
      intro hc
      rcases ha with rfl | rfl
      · exact (hcomment hc).1
      · exact (hcomment hc).2
    cases q with
    | nil => simpa using hnot
    | cons b rest => simpa using hnot
  simp only [front, hword, htake, hnumber, hdigit, radixNumber_cut hd, mark_cut hd,
    (hslash '/' (.inl rfl)).1, (hslash '/' (.inl rfl)).2, (hslash '*' (.inr rfl)).1,
    (hslash '*' (.inr rfl)).2, Bool.false_eq_true, if_false, hquote.1, hquote.2]

/-- What starts with two slashes, or with a slash and a star, is a comment or has no end. -/
theorem front_slash (hhead : q.head? = some '/' ∨ q.head? = some '*')
    (h : front '/' q = .ok (kind, more)) : kind = .comment ∨ kind = .unknown := by
  rcases hhead with hhead | hhead
  · have hline : front '/' q = .ok (.comment, runLength (· ≠ '\n') q) := by
      simp [front, isNameStart, hhead]
    rw [hline] at h
    cases h
    exact .inl rfl
  · have hblock : front '/' q = .ok (blockComment q) := by
      simp [front, isNameStart, hhead]
    rw [hblock, blockComment] at h
    split at h <;> cases h
    · exact .inl rfl
    · exact .inr rfl

/-- What is read in front of a slash is also read in front of a blank, quotes and comments aside. -/
theorem front_blank {x' : List Char} (hquote : c ≠ '"' ∧ c ≠ '\'')
    (h : front c (q ++ '/' :: x) = .ok (kind, more)) (hcomment : kind ≠ .comment)
    (hunknown : kind ≠ .unknown) : front c (q ++ ' ' :: x') = .ok (kind, more) := by
  have hslash : c = '/' → (q ++ '/' :: x).head? ≠ some '/' ∧ (q ++ '/' :: x).head? ≠ some '*' := by
    rintro rfl
    rw [← not_or]
    intro hhead
    rcases front_slash hhead h with rfl | rfl
    · exact hcomment rfl
    · exact hunknown rfl
  have hblank : c = '/' →
      (q ++ ' ' :: x').head? ≠ some '/' ∧ (q ++ ' ' :: x').head? ≠ some '*' := by
    intro hc
    cases q with
    | nil => simp
    | cons a rest => exact hslash hc
  rw [front_cut (.inr rfl) hquote hblank, ← front_cut (.inl rfl) hquote hslash, h]

/-- Behind its opening quote, a quoted token is read up to its end only. -/
theorem front_quote_take (rest : List Char) (hquote : c = '"' ∨ c = '\'')
    (h : front c q = .ok (kind, more)) (hunknown : kind ≠ .unknown) :
    front c (q.take more ++ rest) = .ok (kind, more) := by
  rcases hquote with rfl | rfl <;>
    exact congrArg Except.ok (quoted_take rest (Except.ok.inj h) hunknown).1

/-- A token that is no comment ends in front of the character that cuts, if it starts there. -/
theorem le_length_of_front (h : front c q = .ok (kind, more)) (hcomment : kind ≠ .comment) :
    more ≤ q.length := by
  rcases front_cases h with hended | ⟨-, rfl⟩
  · exact (front_take h hcomment hended.2 .nil).2
  · exact Nat.le_refl _

end Cuts

/-- Whether two texts are the same, or the same up to a slash in the one for which the other has a
blank. -/
def Fork (text text' : List Char) : Prop :=
  text' = text ∨ ∃ q x x', text = q ++ '/' :: x ∧ text' = q ++ ' ' :: x'

section Fork

variable {c : Char} {lexeme text text' : List Char} {kind : Kind}

/-- At the end of one text the other one has ended as well. -/
theorem Fork.eq_nil (h : Fork [] text') : text' = [] := by
  rcases h with rfl | ⟨q, x, x', hnil, -⟩
  · rfl
  · simp at hnil

/-- Two texts part where one goes on with a slash and the other with a blank. -/
theorem Fork.start (text text' : List Char) : Fork ('/' :: text) (' ' :: text') :=
  .inr ⟨[], text, text', rfl, rfl⟩

/-- Texts that part later part as well with the same text in front of them. -/
theorem Fork.append (front : List Char) (h : Fork text text') :
    Fork (front ++ text) (front ++ text') := by
  rcases h with rfl | ⟨q, x, x', rfl, rfl⟩
  · exact .inl rfl
  · exact .inr ⟨front ++ q, x, x', by simp, by simp⟩

/-- What is read in front of a text, comments aside, is also read in front of one that is the same
up to a slash or blank. In front of either, a text reads as if it ended there. -/
theorem front_fork (h : front c (lexeme ++ text) = .ok (kind, lexeme.length))
    (hcomment : kind ≠ .comment) (hfork : Fork text text') :
    front c (lexeme ++ text') = .ok (kind, lexeme.length) := by
  rcases front_cases h with hended | ⟨-, hlength⟩
  · rcases hfork with rfl | ⟨q, x, x', rfl, rfl⟩
    · exact h
    · by_cases hquote : c = '"' ∨ c = '\''
      · have hagain := front_quote_take (q ++ ' ' :: x') hquote h hended.2
        rwa [List.take_left] at hagain
      · rw [← List.append_assoc] at h ⊢
        exact front_blank (not_or.1 hquote) h hcomment hended.2
  · have hnil : text = [] := by simpa using hlength
    subst hnil
    rw [hfork.eq_nil, h]

end Fork

end Token

end Sprout
