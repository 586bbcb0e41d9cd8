import Sprout.Proofs.Blocks.Reading
import Sprout.Proofs.Emission.OneMain
import Sprout.Proofs.Names.Scopes

namespace Sprout

open Target Code

namespace Emission

variable {deny : Bool} {e e' : Emission} {s : Statement} {base : List Line}

/-- An emission whose latest line stays as it is: neither an `else` can follow, nor does one wait for
its brace. -/
structure Rests (e : Emission) : Prop where
  closed : e.closed ≠ some .branch
  pending : ∀ kind text, e.pending ≠ some (.block kind text true)

/-- `KeepsLines e e'`: the lines of `e` stay, and if there are no others, the latest still does so. -/
def KeepsLines (e e' : Emission) : Prop :=
  e.lines <:+ e'.lines ∧ (e'.lines = e.lines → e'.Rests)

/-- Lines are added to those that stay. -/
theorem keeps_cons {l : Line} {lines : List Line} (hlines : e'.lines = l :: lines)
    (hsuffix : e.lines <:+ lines) : KeepsLines e e' := by
  refine ⟨hlines ▸ hsuffix.trans (List.suffix_cons l lines), fun hsame => ?_⟩
  have hle := hsuffix.length_le
  have hlength := congrArg List.length (hlines.symm.trans hsame)
  rw [List.length_cons] at hlength
  omega

/-- The lines of a statement are added while nothing waits. -/
theorem keeps_adds (hclosed : e.closed = none) (hpending : e.pending = none) (hadds : Adds e e') :
    KeepsLines e e' := by
  obtain ⟨body, scopes, diagnostics, -, -, rfl⟩ := hadds
  exact ⟨List.suffix_append _ _, fun _ => ⟨by simp [hclosed], by simp [hpending]⟩⟩

/-- What waits for its brace goes on with the latest line only if it is an `else`. -/
theorem keeps_waits {header : Header} {diagnostics : List Diagnostic} {seenMain : Bool}
    (hclosed : e.closed = none) (hfresh : ∀ kind text, header ≠ .block kind text true) :
    KeepsLines e { e with pending := some header, diagnostics, seenMain } :=
  ⟨List.suffix_refl _, fun _ => ⟨by simp [hclosed], fun kind text heq =>
    hfresh kind text (Option.some.inj heq)⟩⟩

/-- The word `main` changes no line. -/
theorem start_keeps (hclosed : e.closed = none) (h : e.start s = .ok e') : KeepsLines e e' := by
  obtain ⟨-, -, -, rfl⟩ := eq_of_start h
  exact keeps_waits hclosed (by simp)

/-- A block header changes no line. -/
theorem header_keeps (hclosed : e.closed = none) (h : e.header deny s = .ok e') : KeepsLines e e' := by
  obtain ⟨waiting, hwaiting, rfl⟩ := eq_of_header h
  refine keeps_waits hclosed ?_
  rcases headerOf_cases hwaiting with
    ⟨-, text, -, rfl⟩ | ⟨-, text, -, rfl⟩ | ⟨-, -, loop, -, rfl⟩ <;> simp

/-- A clause of a loop changes no line. -/
theorem clause_keeps {part : Clause} (hclosed : e.closed = none)
    (h : e.clause deny part s = .ok e') : KeepsLines e e' := by
  obtain ⟨expr, typed, header, -, -, -, -, rfl⟩ := eq_of_clause h
  exact keeps_waits hclosed (by simp)

/-- An opening brace adds lines and leaves the earlier ones, unless it goes on with the line of an
`else`. -/
theorem opens_keeps (hrests : ∀ kind text, e.pending ≠ some (.block kind text true))
    (h : Opens deny e e') : KeepsLines e e' := by
  cases h with
  | plain | block => exact keeps_cons rfl (List.suffix_refl _)
  | main _ hmain =>
    obtain ⟨declared, scopes, -, rfl⟩ := eq_of_openMain hmain
    exact keeps_cons rfl (List.suffix_cons _ _)
  | goesOn hpending => exact absurd hpending (hrests _ _)
  | loop _ hloop =>
    obtain ⟨bound, args, -, -, ⟨-, rfl⟩ | ⟨own, -, hdeclare⟩⟩ := eq_of_openLoop hloop
    · exact keeps_cons rfl (List.suffix_refl _)
    · obtain ⟨declared, scopes, -, rfl⟩ := eq_of_declare hdeclare
      exact keeps_cons rfl (List.suffix_refl _)

/-- A closing brace adds lines and leaves the earlier ones. -/
theorem closeBlock_keeps {position : Position} (h : e.closeBlock position = .ok e') :
    KeepsLines e e' := by
  obtain ⟨scope, scopes, inner, -, hinner, rfl⟩ := eq_of_closeBlock h
  refine keeps_cons rfl ?_
  obtain ⟨-, rfl⟩ | ⟨-, rfl⟩ := hinner
  · exact List.suffix_cons _ _
  · exact List.suffix_refl _

/-- A statement keeps the lines in front of it, if the latest stays. -/
theorem Rests.step (h : e.Rests) (hstep : e.step deny s = .ok e') : KeepsLines e e' := by
  suffices hkeeps : KeepsLines { e with closed := none } e' from hkeeps
  cases Act.of_step hstep with
  | start _ _ hstart => exact start_keeps rfl hstart
  | declaration _ hpending hdeclaration =>
    exact keeps_adds rfl hpending (declaration_adds hdeclaration)
  | operation _ hpending _ hoperation => exact keeps_adds rfl hpending (operation_adds hoperation)
  | assignment _ hpending _ hassignment =>
    exact keeps_adds rfl hpending (assignment_adds hassignment)
  | header _ _ _ hheader => exact header_keeps rfl hheader
  | alternative _ _ _ halternative => exact absurd (eq_of_alternative halternative).1 h.closed
  | bound _ hclause | step _ hclause => exact clause_keeps rfl hclause
  | jump _ hpending _ hjump => exact keeps_adds rfl hpending (jump_adds hjump)
  | result _ hpending _ hresult => exact keeps_adds rfl hpending (result_adds hresult)
  | opening _ _ hopens => exact opens_keeps h.pending hopens
  | closing _ _ hcloses => exact closeBlock_keeps hcloses

/-- A run gets through every list of statements in front. -/
theorem run_split {before after : List Statement} (h : run deny e (before ++ after) = .ok e') :
    ∃ e₁, run deny e before = .ok e₁ ∧ run deny e₁ after = .ok e' := by
  cases after with
  | nil => exact ⟨e', by simpa using h, rfl⟩
  | cons s after =>
    obtain ⟨e₁, e₂, hbefore, hstep, hafter⟩ := run_append h
    exact ⟨e₁, hbefore, by simp only [run, hstep, hafter]⟩

/-- Lines below the latest one stay. -/
theorem suffix_of_grows {scopes : Scopes} {lines lines' : List Line} (h : Grows scopes lines lines')
    (hsuffix : base <:+ lines) (hother : lines ≠ base) : base <:+ lines' ∧ lines' ≠ base := by
  induction h with
  | same => exact ⟨hsuffix, hother⟩
  | @line lines lines' l _ _ ih =>
    obtain ⟨hkept, -⟩ := ih hsuffix hother
    refine ⟨hkept.trans (List.suffix_cons _ _), fun heq => ?_⟩
    have hle := hkept.length_le
    rw [← heq, List.length_cons] at hle
    omega
  | goesOn =>
    have hearlier := (List.suffix_cons_iff.1 hsuffix).resolve_left hother.symm
    refine ⟨hearlier.trans (List.suffix_cons _ _), fun heq => ?_⟩
    have hle := hearlier.length_le
    rw [← heq, List.length_cons] at hle
    omega

/-- A run keeps the lines in front of it, if the latest stays. -/
theorem suffix_of_run {statements : List Statement} (hstructured : e.Structured)
    (hs : ∀ s ∈ statements, s.Written) (hsuffix : base <:+ e.lines)
    (hrests : e.lines = base → e.Rests) (hrun : run deny e statements = .ok e') :
    base <:+ e'.lines := by
  have hkept : e'.Structured ∧ base <:+ e'.lines ∧ (e'.lines = base → e'.Rests) := by
    refine run_induction
      (P := fun e₁ => e₁.Structured ∧ base <:+ e₁.lines ∧ (e₁.lines = base → e₁.Rests))
      hrun ⟨hstructured, hsuffix, hrests⟩ ?_
    rintro s hmem e₁ e₂ ⟨hstructured, hsuffix, hrests⟩ hstep
    obtain ⟨hnext, hgrows⟩ := hstructured.step (hs s hmem) hstep
    refine ⟨hnext, ?_⟩
    by_cases hsame : e₁.lines = base
    · obtain ⟨hkept, hresting⟩ := (hrests hsame).step hstep
      exact ⟨hsame ▸ hkept, fun heq => hresting (heq.trans hsame.symm)⟩
    · -- Only the latest line can go on, and that is a later one.
      obtain ⟨hkept, hother⟩ := suffix_of_grows hgrows hsuffix hsame
      exact ⟨hkept, fun heq => absurd heq hother⟩
  exact hkept.2.1

end Emission

section Printing

variable {indent : Nat} {l : Line} {earlier lines : List Line} {before : List (List (List Char))}

/-- A line declares what its text declares. -/
theorem namesAfter_printed (hstart : ∃ c ∈ l.text.toList.head?, c ≠ ' ') :
    namesAfter before (l.printed indent) = namesAfter before l.text.toList := by
  obtain ⟨hopens, hcloses, hheader⟩ := read_printed indent hstart
  obtain ⟨hcontent, -⟩ := content_printed indent hstart
  have hown : content l.text.toList = l.text.toList := by
    simpa [Line.printed] using (content_printed 0 hstart).1
  simp only [namesAfter, hopens, hcloses, hheader, hcontent, hown]

/-- The blanks in front of a line declare nothing. -/
theorem keepsApart_printed (hstart : ∃ c ∈ l.text.toList.head?, c ≠ ' ')
    (h : KeepsApart before l.text.toList) : KeepsApart before (l.printed indent) := by
  obtain ⟨hopens, hcloses, -⟩ := read_printed indent hstart
  obtain ⟨hcontent, -⟩ := content_printed indent hstart
  have hown : content l.text.toList = l.text.toList := by
    simpa [Line.printed] using (content_printed 0 hstart).1
  obtain ⟨hdistinct, hcall, htarget⟩ := h
  rw [hown] at hcall htarget
  constructor
  · rwa [namesAfter_printed hstart]
  · rwa [hopens, hcontent]
  · rwa [hcloses, hcontent]

/-- The names behind a line are found from those behind the lines in front of it. -/
theorem names_append (front : List (List Char)) (line : List Char) :
    names (front ++ [line]) = namesAfter (names front) line := by
  simp [names]

/-- The names behind lines that fit are those that are read from their text. -/
theorem names_printed (indent : Nat) (h : Nested earlier) :
    names (earlier.reverse.map (Line.printed indent)) = namesBehind earlier := by
  induction earlier with
  | nil => rfl
  | cons l earlier ih =>
    rw [List.reverse_cons, List.map_append, List.map_singleton, names_append, ih h.2,
      namesAfter_printed h.1.start]
    rfl

/-- The names of a block are apart at each of its lines, if they are at the last. -/
theorem apart_of_suffix (h : Apart lines) (hsuffix : l :: earlier <:+ lines) :
    KeepsApart (namesBehind earlier) l.text.toList := by
  induction lines with
  | nil => cases List.suffix_nil.1 hsuffix
  | cons l' lines ih =>
    cases List.suffix_cons_iff.1 hsuffix with
    | inl heq =>
      cases heq
      exact h.1
    | inr hsuffix => exact ih h.2 hsuffix

end Printing

/-- A source that compiles is emitted as a whole, and behind its first two lines the generated program
is what was emitted. -/
theorem Source.exists_lines_of_compile {source : Source} {options : Options} {artifact : Artifact}
    (h : source.compile options = .ok artifact) :
    ∃ tokens statements last body, source.significant = .ok tokens ∧
      source.statements tokens = .ok statements ∧ (∀ s ∈ statements, s.Written) ∧
      Emission.run options.denyWarnings {} statements = .ok last ∧ Nested last.lines ∧
      artifact.code = "#include \"" ++ options.runtimeHeader ++ "\"\n\n" ++ body ∧
      lines body.toList = last.lines.reverse.map (Line.printed options.indent) ++ [[]] := by
  obtain ⟨tokens, statements, last, htokens, hstatements, hemission, hcode, -⟩ := eq_of_compile h
  obtain ⟨hrun, -⟩ := eq_of_emission hemission
  have hwritten := written_of_statements htokens hstatements
  have hnested := (Emission.structured_empty.run hwritten hrun).1.mirrors.nested
  refine ⟨tokens, statements, last, _, htokens, hstatements, hwritten, hrun, hnested, hcode,
    lines_join fun l hl => ?_⟩
  obtain ⟨after, before, hlines⟩ := List.append_of_mem (List.mem_reverse.1 hl)
  exact (nested_of_suffix hnested ⟨after, hlines.symm⟩).1.line

/-- Names never clash: what spells a name for the generated text keeps names different, and makes
neither a reserved word nor a name that starts like the temporary. So in the program that a source
compiles to, the names declared in a block are distinct at every line, and the temporary is in no call
that it holds and no target that it is read into. These are all the names: wherever no header waits for
its brace and no `else` can follow, those of the open blocks are those of the open scopes. -/
theorem Source.compile_names_apart :
    (Function.Injective Target.name ∧ ∀ text, Target.name text ∉ reserved ∧
      ¬ "_t".toList <+: (Target.name text).toList) ∧
    ∀ (source : Source) (options : Options) (artifact : Artifact),
      source.compile options = .ok artifact →
      ∃ body ls, artifact.code = "#include \"" ++ options.runtimeHeader ++ "\"\n\n" ++ body ∧
        lines body.toList = ls ++ [[]] ∧
        (∀ front line back, ls = front ++ line :: back → KeepsApart (names front) line) ∧
        ∃ tokens statements, source.significant = .ok tokens ∧
          source.statements tokens = .ok statements ∧
          ∀ before after, statements = before ++ after →
            ∃ e, Emission.run options.denyWarnings {} before = .ok e ∧
              (e.pending = none → e.closed ≠ some .branch →
                names (ls.take e.lines.length) = e.scopes.escaped) := by
  refine ⟨⟨name_injective, fun text => ⟨name_not_mem_reserved text, not_temporary_prefix text⟩⟩,
    fun source options artifact h => ?_⟩
  obtain ⟨tokens, statements, last, body, htokens, hstatements, hwritten, hrun, hnested, hcode, hbody⟩ :=
    exists_lines_of_compile h
  have hapart := (Emission.namesApart_empty.run Emission.structured_empty hwritten hrun).apart
  refine ⟨body, last.lines.reverse.map (Line.printed options.indent), hcode, hbody, ?_,
    tokens, statements, htokens, hstatements, ?_⟩
  · intro front line back hls
    obtain ⟨l, earlier, hsuffix, rfl, rfl⟩ := exists_of_printed hls
    obtain ⟨hfits, hearlier⟩ := nested_of_suffix hnested hsuffix
    rw [names_printed options.indent hearlier]
    exact keepsApart_printed hfits.start (apart_of_suffix hapart hsuffix)
  · rintro before after rfl
    rw [List.forall_mem_append] at hwritten
    obtain ⟨e, hrunBefore, hrunAfter⟩ := Emission.run_split hrun
    refine ⟨e, hrunBefore, fun hpending hclosed => ?_⟩
    have hstructured := (Emission.structured_empty.run hwritten.1 hrunBefore).1
    have hnamed := Emission.namesApart_empty.run Emission.structured_empty hwritten.1 hrunBefore
    -- The lines of the statements so far are the first ones of the program.
    have hkept : e.lines <:+ last.lines :=
      Emission.suffix_of_run hstructured hwritten.2 (List.suffix_refl _)
        (fun _ => ⟨hclosed, by simp [hpending]⟩) hrunAfter
    have hfront : (last.lines.reverse.map (Line.printed options.indent)).take e.lines.length =
        e.lines.reverse.map (Line.printed options.indent) := by
      obtain ⟨added, hadded⟩ := hkept
      rw [← hadded, List.reverse_append, List.map_append, List.take_append_of_le_length (by simp)]
      simp
    rw [hfront, names_printed options.indent (nested_of_suffix hnested hkept), hnamed.names]

/-- A program that spells words of the generated text, in a loop and in calls that are unpacked. -/
private def spelledWords : Source :=
  ⟨"words", "main\x7b\nvar class,_t0=divmod(7,2)\nfor var _i=0;class\x7bvar argc=_i\n" ++
    "if argc>_t0\x7b\x7delse\x7bvar class,argv=divmod(argc,2)\x7d\x7d\x7d"⟩

/-- All the words are escaped, those that are declared twice in nested blocks are escaped apart, and
each use has the spelling of the declaration it refers to. -/
theorem spelledWords_compile_names_apart :
    ∃ artifact, spelledWords.compile {} = .ok artifact ∧
      ∃ body ls, artifact.code = "#include \"" ++ ({} : Options).runtimeHeader ++ "\"\n\n" ++ body ∧
        lines body.toList = ls ++ [[]] ∧
        (∀ front line back, ls = front ++ line :: back → KeepsApart (names front) line) ∧
        ∃ tokens statements, spelledWords.significant = .ok tokens ∧
          spelledWords.statements tokens = .ok statements ∧
          ∀ before after, statements = before ++ after →
            ∃ e, Emission.run false {} before = .ok e ∧
              (e.pending = none → e.closed ≠ some .branch →
                names (ls.take e.lines.length) = e.scopes.escaped) := by
  have hisOk : (spelledWords.compile {}).isOk = true := by decide +kernel
  obtain ⟨artifact, hcompile⟩ := exists_eq_ok_of_isOk hisOk
  exact ⟨artifact, hcompile, Source.compile_names_apart.2 _ _ _ hcompile⟩

end Sprout
