import Sprout.Proofs.Places.Lines
import Sprout.Proofs.Places.Parsing
import Sprout.Proofs.Statements.Lines

namespace Sprout

namespace Source

variable {source : Source} {all : List Token} {t : Token}

/-- A token of a text stands in it behind what its place counts, and its first character is no blank.
The token for the end of the text has no character and is left out. -/
theorem exists_text_of_tokens (hscan : source.tokens = .ok all) (ht : t ∈ all)
    (heof : t.kind ≠ .eof) :
    ∃ front rest, source.text.toList = front ++ t.lexeme.toList ++ rest ∧
      t.position = .behind front ∧ ∃ c ∈ t.lexeme.toList.head?, Token.isBlank c = false := by
  obtain ⟨before, after, hall⟩ := List.append_of_mem ht
  obtain ⟨front, rest, htext, hposition, -, hstarts⟩ := Token.exists_text_of_scan hscan hall heof
  exact ⟨front, rest, htext, by rw [hposition, Position.start_after], hstarts⟩

/-- A token that leaves an expression open is an operator or a punctuation mark, so it takes part of
one line. The place one column behind its last character is then the one that the text counts up to
its end, and its last character is no blank. -/
theorem exists_text_of_leavesOpen (hscan : source.tokens = .ok all) (ht : t ∈ all)
    (hsignificant : t.isSignificant = true) (hopen : t.kind.leavesOpen = true) :
    ∃ front rest, source.text.toList = front ++ rest ∧ t.ending = .behind front ∧
      ∃ c ∈ front.getLast?, Token.isBlank c = false := by
  have hmark : t.kind.isMark = true := by
    cases hkind : t.kind <;> rw [hkind] at hopen <;> cases hopen <;> rfl
  have hended := Token.Kind.isEnded_of_isMark hmark
  obtain ⟨front, rest, htext, hposition, c, hc, -⟩ := exists_text_of_tokens hscan ht hended.1
  have hstandalone := Token.standalone_of_isSignificant hscan ht hsignificant hended.2
  have hne : t.lexeme.toList ≠ [] := by
    intro hempty
    simp [hempty] at hc
  have hwidth := Token.width_eq_length (t := t) (by simpa using hne)
  refine ⟨front ++ t.lexeme.toList, rest, htext, ?_, t.lexeme.toList.getLast hne, ?_, ?_⟩
  · rw [Position.behind_append (hstandalone.lineFeed_notMem hmark), Token.ending, hposition, hwidth]
  · rw [List.getLast?_append_of_ne_nil _ hne]
    exact List.getLast?_eq_some_getLast hne
  · exact hstandalone.isBlank_eq_false hmark _ (List.getLast_mem hne)

/-- The tokens of a program stand at places `P`, as `Token.AllIn` asks for, as soon as `P` holds
wherever the text in front or the text behind a place keeps them from being blank there. -/
theorem allIn_of_behind {P : Position → Prop} {tokens : List Token}
    (htokens : source.significant = .ok tokens)
    (hP : ∀ front back, source.text.toList = front ++ back →
      (∃ c ∈ back.head?, Token.isBlank c = false) ∨ (∃ c ∈ front.getLast?, Token.isBlank c = false) →
      P (.behind front)) :
    Token.AllIn P tokens := by
  obtain ⟨all, hscan, rfl⟩ := eq_of_significant htokens
  intro t ht
  obtain ⟨hmem, hsignificant⟩ := List.mem_filter.1 ht
  have heof := Token.ne_eof_of_isSignificant hsignificant
  obtain ⟨front, rest, htext, hposition, c, hc, hblank⟩ := exists_text_of_tokens hscan hmem heof
  refine ⟨?_, heof, fun hopen => ?_⟩
  · rw [List.append_assoc] at htext
    rw [hposition]
    exact hP front _ htext (.inl ⟨c, by rw [List.head?_append]; simp [Option.mem_def.1 hc], hblank⟩)
  · obtain ⟨front, rest, htext, hending, hlast⟩ := exists_text_of_leavesOpen hscan hmem hsignificant hopen
    rw [hending]
    exact hP front rest htext (.inr hlast)

end Source

end Sprout
