import Sprout.Source

namespace Sprout

variable {separator : Char} {front rest text : List Char}

/-- A text has a part, even if it is empty. -/
theorem splitAt_ne_nil (separator : Char) (text : List Char) : splitAt separator text ≠ [] := by
  unfold splitAt
  split
  · simp
  · split
    · simp
    · split <;> simp

/-- A text has one part more than separators. -/
theorem length_splitAt (separator : Char) (text : List Char) :
    (splitAt separator text).length = text.count separator + 1 := by
  induction text with
  | nil => rfl
  | cons c text ih =>
    rw [splitAt]
    by_cases hc : c = separator
    · rw [if_pos hc, List.length_cons, ih, hc, List.count_cons_self]
    · rw [if_neg hc, List.count_cons_of_ne hc, ← ih]
      cases hparts : splitAt separator text with
      | nil => exact absurd hparts (splitAt_ne_nil separator text)
      | cons part others => rfl

/-- The first part of a text ends at the first separator. -/
theorem head?_splitAt (separator : Char) (text : List Char) :
    (splitAt separator text).head? = some (text.takeWhile (· ≠ separator)) := by
  induction text with
  | nil => rfl
  | cons c text ih =>
    rw [splitAt]
    by_cases hc : c = separator
    · simp [hc]
    · rw [if_neg hc]
      cases hparts : splitAt separator text with
      | nil => exact absurd hparts (splitAt_ne_nil separator text)
      | cons part others =>
        rw [hparts] at ih
        simpa [hc] using ih

/-- The parts of a text before a separator, and of the text behind it. -/
theorem splitAt_append_cons (front rest : List Char) :
    splitAt separator (front ++ separator :: rest) =
      splitAt separator front ++ splitAt separator rest := by
  induction front with
  | nil => simp [splitAt]
  | cons c front ih =>
    rw [List.cons_append, splitAt, splitAt, ih]
    by_cases hc : c = separator
    · rw [if_pos hc, if_pos hc, List.cons_append]
    · rw [if_neg hc, if_neg hc]
      cases hparts : splitAt separator front with
      | nil => exact absurd hparts (splitAt_ne_nil separator front)
      | cons part others => rfl

/-- A text without the separator is a single part. -/
theorem splitAt_of_not_mem (h : separator ∉ text) : splitAt separator text = [text] := by
  induction text with
  | nil => rfl
  | cons c text ih =>
    rw [List.mem_cons, not_or] at h
    rw [splitAt, if_neg (Ne.symm h.1), ih h.2]

/-- No part of a text holds the separator. -/
theorem not_mem_of_mem_splitAt : ∀ part ∈ splitAt separator text, separator ∉ part := by
  induction text with
  | nil => simp [splitAt]
  | cons c text ih =>
    rw [splitAt]
    split
    · rw [List.forall_mem_cons]
      exact ⟨List.not_mem_nil, ih⟩
    · rename_i hc
      cases hparts : splitAt separator text with
      | nil => exact absurd hparts (splitAt_ne_nil separator text)
      | cons part others =>
        rw [hparts, List.forall_mem_cons] at ih
        rw [List.forall_mem_cons, List.mem_cons, not_or]
        exact ⟨⟨Ne.symm hc, ih.1⟩, ih.2⟩

/-- Joined parts are cut where they were joined. -/
theorem splitAt_intercalate {parts : List (List Char)} (hne : parts ≠ [])
    (h : ∀ part ∈ parts, separator ∉ part) :
    splitAt separator ([separator].intercalate parts) = parts := by
  induction parts with
  | nil => exact absurd rfl hne
  | cons part parts ih =>
    rw [List.forall_mem_cons] at h
    cases parts with
    | nil => rw [List.intercalate_singleton, splitAt_of_not_mem h.1]
    | cons next others =>
      rw [List.intercalate_cons_cons, List.append_assoc, List.singleton_append,
        splitAt_append_cons, splitAt_of_not_mem h.1, ih (List.cons_ne_nil _ _) h.2]
      rfl

/-- The parts of a text make it up again. -/
theorem intercalate_splitAt (separator : Char) (text : List Char) :
    [separator].intercalate (splitAt separator text) = text := by
  induction text with
  | nil => rfl
  | cons c text ih =>
    rw [splitAt]
    cases hparts : splitAt separator text with
    | nil => exact absurd hparts (splitAt_ne_nil separator text)
    | cons part others =>
      rw [hparts] at ih
      by_cases hc : c = separator
      · rw [if_pos hc, List.intercalate_cons_cons, ih, hc]
        rfl
      · rw [if_neg hc, List.intercalate_cons_cons_left, ih]

end Sprout
