import Sprout.Proofs.Domains.Compiling
import Sprout.Proofs.Places.Grouping

namespace Sprout

namespace Token

/-- Where no token can be read, there is a character that is no blank. -/
theorem exists_text_of_scan_error {p : Position} {text : List Char} {defect : Defect Lexical}
    (h : scan p text = .error defect) :
    ∃ front c rest, text = front ++ c :: rest ∧ isBlank c = false ∧
      defect.position = p.after front := by
  fun_induction scan p text with
  | case1 p => cases h
  | case2 p c rest hblank ih =>
    obtain ⟨front, d, behind, rfl, hd, hposition⟩ := ih h
    exact ⟨c :: front, d, behind, rfl, hd, hposition⟩
  | case3 p c rest hblank cause width hfront =>
    cases h
    exact ⟨[], c, rest, rfl, by simpa using hblank, rfl⟩
  | case4 p c rest hblank kind more hfront lexeme defect' hdefect =>
    rename_i ih
    cases h
    obtain ⟨front, d, behind, hrest, hd, hposition⟩ := ih hdefect
    refine ⟨lexeme ++ front, d, behind, ?_, hd, by rw [Position.after_append, hposition]⟩
    rw [List.append_assoc, ← hrest, List.cons_append, List.take_append_drop]
  | case5 p c rest hblank kind more hfront lexeme others hothers => cases h

end Token

namespace CompileError

/-- Whether an error is about the form of a source, and not about what it means. -/
def isSyntactic : CompileError → Bool
  | lexical _ _ | malformed _ _ => true
  | _ => false

/-- Whether an error, if it is about the form of a source, is about `source` and shown on a line of
it. Tokens start with no blank, and those that leave an expression open hold none, so they end on
the line where they start. -/
def ShownBy (source : Source) : CompileError → Prop
  | lexical source' defect => source' = source ∧ source.Shows defect.position
  | malformed source' defect => source' = source ∧ source.Shows defect.position
  | _ => True

end CompileError

namespace Source

variable {source : Source} {options : Options} {tokens : List Token} {statements : List Statement}
  {s : Statement} {error : CompileError} {t : Token}

/-- A character that is no blank can be shown. -/
theorem shows_of_isBlank_eq_false {front rest : List Char} {c : Char}
    (htext : source.text.toList = front ++ c :: rest) (hblank : Token.isBlank c = false) :
    source.Shows (.behind front) := by
  refine shows_behind htext fun _ => ⟨c, rfl, ?_⟩
  rintro rfl
  cases hblank

/-- The tokens of a program start where its source can show them, since they start with no blank. Those
that leave an expression open end with none, and so end where it can show them too. -/
theorem allIn_shows (htokens : source.significant = .ok tokens) :
    Token.AllIn source.Shows tokens := by
  refine allIn_of_behind htokens fun front back htext hnear => ?_
  rcases hnear with ⟨c, hc, hblank⟩ | ⟨c, hc, hblank⟩
  · obtain ⟨rest, rfl⟩ := List.head?_eq_some_iff.1 hc
    exact shows_of_isBlank_eq_false htext hblank
  · refine shows_behind htext fun hreturn => ?_
    rw [Option.mem_def.1 hc, Option.some.injEq] at hreturn
    rw [hreturn] at hblank
    cases hblank

/-- A text that cannot be cut into tokens is blamed on a character that is no blank. -/
theorem shownBy_of_significant (h : source.significant = .error error) : error.ShownBy source := by
  unfold significant at h
  split at h
  · rename_i defect hdefect
    cases h
    obtain ⟨front, c, rest, htext, hblank, hposition⟩ := Token.exists_text_of_scan_error hdefect
    refine ⟨rfl, ?_⟩
    rw [hposition, Position.start_after]
    exact shows_of_isBlank_eq_false htext hblank
  · cases h

/-- A refusal to read tokens at places that a source shows is shown by the source. -/
theorem shownBy_of_malformed {α : Type} {x : Except (Defect Malformed) α}
    (hx : RefusesIn source.Shows x) (h : x.mapError (.malformed source) = .error error) :
    error.ShownBy source := by
  obtain ⟨defect, hdefect, rfl⟩ := mapError_eq_error_iff.1 h
  exact ⟨rfl, hx defect hdefect defect.position rfl⟩

/-- Tokens that cannot be cut into statements are blamed on one of them. -/
theorem shownBy_of_statements (htokens : source.significant = .ok tokens)
    (h : source.statements tokens = .error error) : error.ShownBy source :=
  shownBy_of_malformed
    (Statement.refusesIn_group fun t ht => (allIn_shows htokens t ht).1) h

/-- The tokens of every statement are tokens of the program, which the source can show. -/
theorem standsIn_shows (htokens : source.significant = .ok tokens)
    (hstatements : source.statements tokens = .ok statements) (hs : s ∈ statements) :
    s.StandsIn source.Shows :=
  (allIn_shows htokens).of_subset (sublist_of_statements hstatements hs).subset

/-- A statement whose tokens are malformed is blamed on one of them, or on the place behind one that
leaves an expression open. -/
theorem shownBy_of_emission {deny : Bool} (htokens : source.significant = .ok tokens)
    (hstatements : source.statements tokens = .ok statements)
    (h : source.emission deny statements = .error error) : error.ShownBy source := by
  rw [emission, bind_eq_error_iff] at h
  rcases h with hrun | ⟨e, -, hunfinished⟩
  · obtain ⟨⟨failure, s⟩, hfails, rfl⟩ := mapError_eq_error_iff.1 hrun
    obtain ⟨before, after, e, rfl, -, hstep⟩ := Emission.run_eq_error hfails
    have hs : s ∈ before ++ s :: after := List.mem_append_right _ List.mem_cons_self
    have hgroup := mapError_eq_ok_iff.1 hstatements
    cases failure with
    | violation violation => trivial
    | malformed defect =>
      rcases Emission.step_refuses (standsIn_shows htokens hstatements hs)
        (fun _ => shows_start source) (Statement.lead_of_header hgroup hs) hstep with
        hshown | ⟨-, -, _, _, -, hdenied⟩
      · exact ⟨rfl, hshown defect.position rfl⟩
      · cases hdenied
  · split at hunfinished
    · cases hunfinished
      trivial
    · cases hunfinished

/-- Whatever stage a compilation fails at, a syntax error is about the source and can be shown. -/
theorem shownBy_of_compile (h : source.compile options = .error error) :
    error.ShownBy source := by
  simp only [compile, bind_eq_error_iff] at h
  rcases h with hlexing | ⟨tokens, htokens, hgrouping | ⟨statements, hstatements, h⟩⟩
  · exact shownBy_of_significant hlexing
  · exact shownBy_of_statements htokens hgrouping
  · rcases h with hemission | ⟨e, -, hpure⟩
    · exact shownBy_of_emission htokens hstatements hemission
    · cases hpure

/-- An expression that cannot be read is blamed on a place of its statement. -/
theorem shownBy_of_trees (hs : s.StandsIn source.Shows) (h : source.trees s = .error error) :
    error.ShownBy source := by
  refine shownBy_of_malformed (fun defect hdefect => ?_) h
  obtain ⟨run, hrun, hparse⟩ := exists_of_mapM_eq_error hdefect
  have hall : Token.AllIn source.Shows run := hs.of_subset (Statement.subset_of_mem_runs run hrun)
  exact Expr.refusesIn_parse hall (fun _ => shows_start source) defect hparse

/-- Whatever stage the listing of trees fails at, a syntax error is about the source and can be
shown. -/
theorem shownBy_of_treeDump (h : source.treeDump = .error error) : error.ShownBy source := by
  simp only [treeDump, bind_eq_error_iff] at h
  rcases h with hlexing | ⟨tokens, htokens, hgrouping | ⟨statements, hstatements, h⟩⟩
  · exact shownBy_of_significant hlexing
  · exact shownBy_of_statements htokens hgrouping
  · rcases h with hblocks | ⟨blocks, -, hpure⟩
    · obtain ⟨s, hs, hblock⟩ := exists_of_mapM_eq_error hblocks
      rcases bind_eq_error_iff.1 hblock with htrees | ⟨trees, -, hpure⟩
      · exact shownBy_of_trees (standsIn_shows htokens hstatements hs) htrees
      · cases hpure
    · cases hpure

/-- Every syntax error can be shown. Where a source is refused for its form, by a compilation or by the
list of its statements, the place that is blamed lies on a line of the source or just behind one. Two
lines show it: the line behind its number, and below it carets from the column of the place on. They
do not reach past the line, unless they are a single one just behind it. A carriage return that
ends the line does not belong to it. -/
theorem syntaxError_shown
    (h : source.compile? options = .error (some error) ∨ source.treeDump? = .error (some error))
    (hsyntactic : error.isSyntactic = true) :
    ∃ p line carets, error.position? = some p ∧
      1 ≤ p.line ∧ p.line ≤ (lines source.text.toList).length ∧
      (lines source.text.toList)[p.line - 1]? = some line ∧
      1 ≤ p.column ∧ p.column ≤ (dropReturn line).length + 1 ∧
      1 ≤ carets ∧ (p.column - 1 + carets ≤ (dropReturn line).length ∨
        p.column = (dropReturn line).length + 1 ∧ carets = 1) ∧
      lines error.context.toList =
        [(toString p.line).toList ++ " | ".toList ++ dropReturn line,
          List.replicate (toString p.line).length ' ' ++ " | ".toList ++
            List.replicate (p.column - 1) ' ' ++ List.replicate carets '^'] := by
  have hshown : error.ShownBy source := by
    rcases h with hcompile | hdump
    · exact shownBy_of_compile ((compile?_below source options).eq_of_error hcompile)
    · exact shownBy_of_treeDump ((treeDump?_below source).eq_of_error hdump)
  have hplace : ∃ p width, error.position? = some p ∧ source.Shows p ∧
      error.context = source.highlight p width := by
    cases error with
    | unreadable failure => cases hsyntactic
    | semantic source' fault position statement => cases hsyntactic
    | lexical source' defect | malformed source' defect =>
      obtain ⟨rfl, hshows⟩ := hshown
      exact ⟨defect.position, defect.width, rfl, hshows, rfl⟩
  obtain ⟨p, width, hposition, ⟨line, hline, hcolumn, hle⟩, hcontext⟩ := hplace
  have hhighlight := lines_highlight hline width
  have hcarets := caretCount_fits width hcolumn hle
  obtain ⟨hfirst, hlast, whole, hwhole, rfl⟩ := line?_eq_some_iff.1 hline
  rw [hcontext]
  exact ⟨p, whole, _, hposition, hfirst, hlast, hwhole, hcolumn, hle, hcarets.1, hcarets.2,
    hhighlight⟩

/-- A sum that lacks an operand, on a line that ends with a carriage return, behind a text that takes
two lines. -/
private def halfSum : Source :=
  ⟨"half", "main \x7b\r\n\tprint(\"é\r\n\" +\r\n\x7d"⟩

/-- The error stands behind the sign, in the second of the lines that the text in front of it
makes. -/
theorem halfSum_shown :
    ∃ error, halfSum.compile? {} = .error (some error) ∧ error.isSyntactic = true ∧
      error.position? = some ⟨3, 4⟩ ∧
      ∃ p line carets, error.position? = some p ∧
        1 ≤ p.line ∧ p.line ≤ (lines halfSum.text.toList).length ∧
        (lines halfSum.text.toList)[p.line - 1]? = some line ∧
        1 ≤ p.column ∧ p.column ≤ (dropReturn line).length + 1 ∧
        1 ≤ carets ∧ (p.column - 1 + carets ≤ (dropReturn line).length ∨
          p.column = (dropReturn line).length + 1 ∧ carets = 1) ∧
        lines error.context.toList =
          [(toString p.line).toList ++ " | ".toList ++ dropReturn line,
            List.replicate (toString p.line).length ' ' ++ " | ".toList ++
              List.replicate (p.column - 1) ' ' ++ List.replicate carets '^'] := by
  have hchecked : (match halfSum.compile {} with
      | .ok _ => none
      | .error error => some (error.isSyntactic, error.position?)) =
      some (true, some ⟨3, 4⟩) := by
    decide +kernel
  split at hchecked
  · cases hchecked
  · rename_i error herror
    simp only [Option.some.injEq, Prod.mk.injEq] at hchecked
    obtain ⟨hsyntactic, hposition⟩ := hchecked
    have hshort : halfSum.text.length + 1 < 2 ^ 32 := by decide +kernel
    have hfails : halfSum.compile? {} = .error (some error) := by
      rw [compile?_eq (fits_of_length (by omega) (by omega)) (by omega) (by decide), herror]
      rfl
    exact ⟨error, hfails, hsyntactic, hposition, syntaxError_shown (.inl hfails) hsyntactic⟩

end Source

end Sprout
