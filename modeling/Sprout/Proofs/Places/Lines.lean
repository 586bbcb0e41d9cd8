import Sprout.Proofs.Lexing.Tiling
import Sprout.Proofs.Text.Splitting

namespace Sprout

/-- Counting goes on in the same line behind a text without line feeds. -/
theorem Position.behind_append {front text : List Char} (htext : '\n' ∉ text) :
    behind (front ++ text) = ⟨(behind front).line, (behind front).column + text.length⟩ := by
  have hcolumns : (text.reverse ++ front.reverse).takeWhile (· ≠ '\n') =
      text.reverse ++ front.reverse.takeWhile (· ≠ '\n') := by
    refine List.takeWhile_append_of_pos fun c hc => decide_eq_true ?_
    rintro rfl
    exact htext (List.mem_reverse.1 hc)
  simp only [behind, List.count_append, List.count_eq_zero_of_not_mem htext, Nat.add_zero,
    List.reverse_append, hcolumns, List.length_append, List.length_reverse, Position.mk.injEq,
    true_and]
  omega

/-- The line on which two parts of a text meet: what stands behind the last line feed of the first
part, and what stands in front of the first one of the second. -/
def meetingLine (front back : List Char) : List Char :=
  (front.reverse.takeWhile (· ≠ '\n')).reverse ++ back.takeWhile (· ≠ '\n')

/-- The line that a place lies on is found by the number of line feeds in front of it. -/
theorem getElem?_lines (front back : List Char) :
    (lines (front ++ back))[front.count '\n']? = some (meetingLine front back) := by
  induction front using List.reverseRecOn generalizing back with
  | nil =>
    rw [List.count_nil, ← List.head?_eq_getElem?, List.nil_append, lines, head?_splitAt]
    rfl
  | append_singleton front c ih =>
    rw [List.append_assoc, List.singleton_append]
    by_cases hc : c = '\n'
    · have hlength := length_splitAt '\n' front
      rw [hc, lines, splitAt_append_cons, List.count_append, List.count_singleton_self,
        List.getElem?_append_right (by omega), hlength, Nat.sub_self, ← List.head?_eq_getElem?,
        head?_splitAt]
      simp [meetingLine]
    · have hcount : (front ++ [c]).count '\n' = front.count '\n' := by
        simp [List.count_append, hc]
      rw [hcount, ih (c :: back)]
      simp [meetingLine, hc]

/-- A line loses one character at most, the carriage return at its end. -/
theorem length_le_dropReturn (line : List Char) : line.length ≤ (dropReturn line).length + 1 := by
  unfold dropReturn
  split
  · rw [List.length_dropLast]
    omega
  · omega

/-- A line that does not end with a carriage return is shown as it is. -/
theorem dropReturn_of_ne {line : List Char} (h : line.getLast? ≠ some '\r') :
    dropReturn line = line :=
  if_neg h

/-- What stands on a line in front of a place is shown, unless it ends with the carriage return that
ends the line. -/
theorem length_le_dropReturn_meetingLine {front back : List Char}
    (hreturn : front.getLast? = some '\r' → ∃ c ∈ back.head?, c ≠ '\n') :
    (front.reverse.takeWhile (· ≠ '\n')).length ≤ (dropReturn (meetingLine front back)).length := by
  by_cases hends : back.takeWhile (· ≠ '\n') = []
  · have hlast : (meetingLine front back).getLast? ≠ some '\r' := by
      rw [meetingLine, hends, List.append_nil, List.getLast?_reverse, List.head?_takeWhile,
        List.head?_reverse]
      intro hlast
      obtain ⟨c, hc, hne⟩ := hreturn (Option.filter_eq_some_iff.1 hlast).1
      obtain ⟨others, rfl⟩ := List.head?_eq_some_iff.1 hc
      simp [hne] at hends
    rw [dropReturn_of_ne hlast, meetingLine, List.length_append, List.length_reverse]
    exact Nat.le_add_right _ _
  · have hfollowing := List.length_pos_iff.2 hends
    have hlong := length_le_dropReturn (meetingLine front back)
    rw [meetingLine, List.length_append, List.length_reverse] at hlong
    rw [meetingLine]
    omega

/-- What is shown of a line stands in it. -/
theorem dropReturn_subset (line : List Char) : dropReturn line ⊆ line := by
  unfold dropReturn
  split
  · exact List.dropLast_subset line
  · exact List.Subset.refl line

namespace Source

variable {source : Source} {p : Position} {line front back : List Char}

/-- Whether a place lies on a line of a source, or just behind it. A carriage return takes a column
where it ends a line, but the line is shown without it; so a place behind such a return is not
shown. -/
def Shows (source : Source) (p : Position) : Prop :=
  ∃ line, source.line? p.line = some line ∧ 1 ≤ p.column ∧ p.column ≤ line.length + 1

/-- The lines of a source are those of its text. -/
theorem line?_eq_some_iff {number : Nat} :
    source.line? number = some line ↔ 1 ≤ number ∧ number ≤ (lines source.text.toList).length ∧
      ∃ whole, (lines source.text.toList)[number - 1]? = some whole ∧ line = dropReturn whole := by
  unfold line?
  by_cases hzero : number = 0
  · simp [hzero]
  · rw [if_neg hzero, Option.map_eq_some_iff]
    constructor
    · rintro ⟨whole, hwhole, rfl⟩
      obtain ⟨hlength, -⟩ := List.getElem?_eq_some_iff.1 hwhole
      exact ⟨by omega, by omega, whole, hwhole, rfl⟩
    · rintro ⟨-, -, whole, hwhole, rfl⟩
      exact ⟨whole, hwhole, rfl⟩

/-- The place behind a part of a text can be shown, unless the part ends with the carriage return
that ends a line. -/
theorem shows_behind (htext : source.text.toList = front ++ back)
    (hreturn : front.getLast? = some '\r' → ∃ c ∈ back.head?, c ≠ '\n') :
    source.Shows (.behind front) := by
  have hfound : (lines source.text.toList)[front.count '\n']? = some (meetingLine front back) := by
    rw [htext]
    exact getElem?_lines front back
  have hline : source.line? (Position.behind front).line =
      some (dropReturn (meetingLine front back)) := by
    simp [line?, Position.behind, hfound]
  refine ⟨_, hline, Nat.le_add_right 1 _, ?_⟩
  have hshown := length_le_dropReturn_meetingLine hreturn
  simp only [Position.behind]
  omega

/-- Every source has a first line, so its start can be shown. It is what a run without tokens is
blamed on. -/
theorem shows_start (source : Source) : source.Shows .start := by
  have htext : source.text.toList = [] ++ source.text.toList := rfl
  exact shows_behind htext fun hreturn => by cases hreturn

/-- At least one caret is shown, and the carets do not reach past the line, unless they are a single
one just behind it. -/
theorem caretCount_fits {length column : Nat} (width : Nat) (hcolumn : 1 ≤ column)
    (hle : column ≤ length + 1) :
    1 ≤ caretCount length column width ∧
      (column - 1 + caretCount length column width ≤ length ∨
        column = length + 1 ∧ caretCount length column width = 1) := by
  unfold caretCount
  omega

/-- Digits are written on one line. -/
theorem lineFeed_notMem_toDigits (n : Nat) : '\n' ∉ Nat.toDigits 10 n := by
  intro hfeed
  have hdigit := Nat.isDigit_of_mem_toDigits (by decide) (by decide) hfeed
  exact absurd hdigit (by decide)

/-- A place on a line is shown by two lines: the line behind its number, and carets below it.
Positions are counted along the text and lines are cut from it, but both agree on what a line is. -/
theorem lines_highlight (hline : source.line? p.line = some line) (width : Nat) :
    lines (source.highlight p width).toList =
      [(toString p.line).toList ++ " | ".toList ++ line,
        List.replicate (toString p.line).length ' ' ++ " | ".toList ++
          List.replicate (p.column - 1) ' ' ++
          List.replicate (caretCount line.length p.column width) '^'] := by
  obtain ⟨-, -, whole, hwhole, rfl⟩ := line?_eq_some_iff.1 hline
  have hfeed : '\n' ∉ dropReturn whole := by
    have hpart := not_mem_of_mem_splitAt whole (List.mem_of_getElem? hwhole)
    exact fun hmem => hpart (dropReturn_subset whole hmem)
  have hnumber := lineFeed_notMem_toDigits p.line
  have hparts : (source.highlight p width).toList =
      ((toString p.line).toList ++ " | ".toList ++ dropReturn whole) ++ '\n' ::
        (List.replicate (toString p.line).length ' ' ++ " | ".toList ++
          List.replicate (p.column - 1) ' ' ++
          List.replicate (caretCount (dropReturn whole).length p.column width) '^') := by
    simp [highlight, hline, repeated]
  rw [hparts, lines, splitAt_append_cons, splitAt_of_not_mem, splitAt_of_not_mem]
  · rfl
  · simp
  · simp [hnumber, hfeed]

end Source

end Sprout
