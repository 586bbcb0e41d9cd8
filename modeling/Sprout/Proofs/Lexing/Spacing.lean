import Sprout.Proofs.Canonical
import Sprout.Proofs.Statements.Partition

namespace Sprout

namespace Token

/-- What is left of a token without its position. What a text reads as is decided at the characters
behind each token, and blanks in their place leave the spelling as it is. -/
def spelling (t : Token) : Kind × String :=
  (t.kind, t.lexeme)

/-- Whether a token has a text of its own that takes part in a program: it is no comment, it has its
end, and it does not stand for the end of the text. -/
def isSpelled (t : Token) : Bool :=
  t.isSignificant && t.kind ≠ .unknown

/-- `Respaced ts text`: the text consists of the lexemes of the tokens, in order, with blanks, at least
one, between each two. -/
inductive Respaced : List Token → List Char → Prop
  | nil : Respaced [] []
  | single {t} : Respaced [t] t.lexeme.toList
  | cons {t t' ts text} (blanks : List Char) (hne : blanks ≠ [])
      (hblanks : ∀ c ∈ blanks, isBlank c = true) (h : Respaced (t' :: ts) text) :
      Respaced (t :: t' :: ts) (t.lexeme.toList ++ blanks ++ text)

variable {p : Position} {ts : List Token} {text : List Char}

/-- A run is respaced by single blanks. -/
theorem respaced_spacedText (ts : List Token) : Respaced ts (spacedText ts).toList := by
  induction ts with
  | nil => exact .nil
  | cons t ts ih =>
    cases ts with
    | nil => simpa [spacedText] using Respaced.single (t := t)
    | cons t' ts =>
      rw [spacedText_cons_cons]
      exact .cons [' '] (by simp) (by simp [isBlank]) ih

/-- Tokens that can be written down by themselves are read under any spacing. -/
theorem Respaced.scans (h : Respaced ts text) (hts : ∀ t ∈ ts, t.Standalone) (p : Position) :
    ∃ us, Scans p text [] us ∧ us.map spelling = ts.map spelling := by
  induction h generalizing p with
  | nil => exact ⟨[], .nil, rfl⟩
  | @single t => exact ⟨_, (hts t (by simp)).scans .nil, rfl⟩
  | @cons t t' ts text blanks hne hblanks _ ih =>
    rw [List.forall_mem_cons] at hts
    obtain ⟨us, hus, hspelling⟩ := ih hts.2 (p.after (t.lexeme.toList ++ blanks))
    have hspaced : Spaced (blanks ++ (text ++ [])) := by
      obtain ⟨c, others, rfl⟩ := List.exists_cons_of_ne_nil hne
      exact .blank (hblanks c (by simp))
    have hfront := (hts.1.scans (p := p) hspaced).append (Scans.allBlank hblanks)
    exact ⟨_, hfront.append hus, by simp [spelling, hspelling]⟩

/-- Only tokens that take part in a program are held by statements. -/
theorem mem_of_mem_stated {t : Token} {depth : Nat} {ts : List Token} (h : t ∈ stated depth ts) :
    t ∈ ts ∧ t.isSignificant = true := by
  induction ts generalizing depth with
  | nil => cases h
  | cons t' ts ih =>
    have hrest : ∀ {depth}, t ∈ stated depth ts → t ∈ t' :: ts ∧ t.isSignificant = true :=
      fun h => ⟨List.mem_cons_of_mem _ (ih h).1, (ih h).2⟩
    rw [stated] at h
    split at h
    · exact hrest h
    · rename_i hkept
      have hsignificant : t'.isSignificant = true := by
        simp only [Bool.or_eq_true, Bool.not_eq_true', not_or] at hkept
        exact Bool.eq_true_of_not_eq_false hkept.1
      split at h <;> rcases List.mem_cons.1 h with rfl | h
      · exact ⟨by simp, hsignificant⟩
      · exact hrest h
      · exact ⟨by simp, hsignificant⟩
      · exact hrest h

end Token

namespace Source

/-- Whether a source reads as the kinds and lexemes of a run, and then ends. -/
def ReadsAs (source : Source) (run : List Token) : Prop :=
  ∃ ts, source.tokens = .ok ts ∧ ts.map Token.spelling = run.map Token.spelling ++ [(.eof, "")]

/-- A text with blanks of any kind between the spellings of tokens reads as these tokens. -/
theorem readsAs_of_respaced {source : Source} {run : List Token}
    (h : Token.Respaced run source.text.toList) (hrun : ∀ t ∈ run, t.Standalone) :
    source.ReadsAs run := by
  obtain ⟨us, hscans, hspelling⟩ := h.scans hrun .start
  exact ⟨_, hscans.scan_eq, by rw [List.map_append, hspelling]; rfl⟩

/-- Reading again is stable under any spacing. The tokens of a source, without its comments, what
lacks its end, and the end of the text, are read again from every text that has them in order with
blanks in between; and from the text of each statement that tokens of the source are grouped into,
its tokens are. -/
theorem tokens_respaced {source : Source} {ts : List Token} (h : source.tokens = .ok ts) :
    (∀ name text, Token.Respaced (ts.filter Token.isSpelled) text.toList →
        ReadsAs ⟨name, text⟩ (ts.filter Token.isSpelled)) ∧
      ∀ run statements, run ⊆ ts → Statement.group run = .ok statements →
        ∀ s ∈ statements, ∀ name, ReadsAs ⟨name, s.text⟩ s.tokens := by
  constructor
  · intro name text htext
    refine readsAs_of_respaced htext fun t ht => ?_
    obtain ⟨hmem, hspelled⟩ := List.mem_filter.1 ht
    simp only [Token.isSpelled, Bool.and_eq_true, decide_eq_true_eq] at hspelled
    exact Token.standalone_of_isSignificant h hmem hspelled.1 hspelled.2
  · intro run statements hrun hgroup s hs name
    refine readsAs_of_respaced (Token.respaced_spacedText s.tokens) fun t ht => ?_
    have hstated : t ∈ Token.stated 0 run := by
      rw [← Grouping.tokensOf_group hgroup]
      exact List.mem_flatMap.2 ⟨s, hs, ht⟩
    obtain ⟨hmem, hsignificant⟩ := Token.mem_of_mem_stated hstated
    exact Token.standalone_of_isSignificant h (hrun hmem) hsignificant
      (Statement.ne_unknown_of_group hgroup t hmem)

/-- Two points that belong to a member and to a number, slashes that start no comment and some that do,
and digits of a base. -/
private def closeMarks : Source := ⟨"close", "1..5/ /#F//e"⟩

/-- The tokens of the same source, on several lines. -/
private def looseMarks : String := "1\n.\t.5\r\n/  /\n#F"

/-- The blanks between the tokens need not be the ones of the source. Without any, the marks of the
statement would be read as other ones. -/
theorem closeMarks_respaced :
    ∃ ts statements, closeMarks.tokens = .ok ts ∧ Statement.group ts = .ok statements ∧
      statements.map Statement.text = ["1 . .5 / / #F"] ∧
      ReadsAs ⟨"loose", looseMarks⟩ (ts.filter Token.isSpelled) ∧
      ∀ s ∈ statements, ∀ name, ReadsAs ⟨name, s.text⟩ s.tokens := by
  have hseen : (do
      let ts ← closeMarks.tokens.toOption
      let statements ← (Statement.group ts).toOption
      some (ts.filter Token.isSpelled, statements.map Statement.text)) =
      some ([⟨.integer, "1", ⟨1, 1⟩⟩, ⟨.dot, ".", ⟨1, 2⟩⟩, ⟨.double, ".5", ⟨1, 3⟩⟩,
        ⟨.operator (.arithmetic .div), "/", ⟨1, 5⟩⟩, ⟨.operator (.arithmetic .div), "/", ⟨1, 7⟩⟩,
        ⟨.integer, "#F", ⟨1, 8⟩⟩], ["1 . .5 / / #F"]) := by decide +kernel
  simp only [Option.bind_eq_bind, Option.bind_eq_some_iff] at hseen
  obtain ⟨ts, htokens, statements, hgroup, heq⟩ := hseen
  obtain ⟨hspelled, htexts⟩ := Prod.mk.inj (Option.some.inj heq)
  replace htokens := eq_ok_of_toOption htokens
  replace hgroup := eq_ok_of_toOption hgroup
  obtain ⟨hrespaced, hstatements⟩ := tokens_respaced htokens
  refine ⟨ts, statements, htokens, hgroup, htexts, hrespaced _ _ ?_,
    hstatements ts statements (List.Subset.refl ts) hgroup⟩
  rw [hspelled]
  -- One step for each gap, from the first on.
  refine .cons ['\n'] (by simp) (by simp [Token.isBlank]) ?_
  refine .cons ['\t'] (by simp) (by simp [Token.isBlank]) ?_
  refine .cons ['\r', '\n'] (by simp) (by simp [Token.isBlank]) ?_
  refine .cons [' ', ' '] (by simp) (by simp [Token.isBlank]) ?_
  exact .cons ['\n'] (by simp) (by simp [Token.isBlank]) .single

end Source

end Sprout
