import Sprout.Proofs.Blocks.Structure
import Sprout.Proofs.Text.Splitting
import Sprout.Proofs.Writes

namespace Sprout

open Target Code

section Printing

variable {indent : Nat} {l : Line} {line : List Char}

/-- A line with the blanks in front of it. -/
def Line.printed (indent : Nat) (l : Line) : List Char :=
  List.replicate (indent * l.depth) ' ' ++ l.text.toList

/-- A line of one line stays one when it is printed behind its blanks. -/
theorem not_mem_printed (h : isOneLine l.text = true) : '\n' ∉ l.printed indent := by
  have htext : '\n' ∉ l.text.toList := by
    intro hmem
    simpa using List.all_eq_true.1 h '\n' hmem
  rw [Line.printed, List.mem_append, not_or]
  exact ⟨fun hmem => absurd (List.eq_of_mem_replicate hmem) (by decide), htext⟩

/-- The lines of the text that lines make up. -/
theorem lines_join {ls : List Line} (h : ∀ l ∈ ls, isOneLine l.text = true) :
    lines (String.join (ls.map (Line.render indent))).toList = ls.map (Line.printed indent) ++ [[]] := by
  induction ls with
  | nil => rfl
  | cons l ls ih =>
    rw [List.forall_mem_cons] at h
    have htext : (String.join ((l :: ls).map (Line.render indent))).toList =
        l.printed indent ++ '\n' :: (String.join (ls.map (Line.render indent))).toList := by
      simp [Line.render, Line.printed, repeated]
    rw [htext, lines, splitAt_append_cons, splitAt_of_not_mem (not_mem_printed h.1)]
    exact congrArg _ (ih h.2)

/-- The blanks in front of a line are not read. -/
theorem content_printed (indent : Nat) (hstart : ∃ c ∈ l.text.toList.head?, c ≠ ' ') :
    content (l.printed indent) = l.text.toList ∧
      ((l.printed indent).takeWhile (· = ' ')).length = indent * l.depth := by
  obtain ⟨c, hc, hblank⟩ := hstart
  obtain ⟨text, htext⟩ := List.head?_eq_some_iff.1 hc
  have hall : ∀ d ∈ List.replicate (indent * l.depth) ' ', decide (d = ' ') = true := by
    intro d hd
    simpa using List.eq_of_mem_replicate hd
  rw [Line.printed, htext]
  constructor
  · rw [content, List.dropWhile_append_of_pos hall, List.dropWhile_cons_of_neg (by simpa using hblank)]
  · rw [List.takeWhile_append_of_pos hall, List.takeWhile_cons_of_neg (by simpa using hblank)]
    simp

/-- A line is read as its text. -/
theorem read_printed (indent : Nat) (hstart : ∃ c ∈ l.text.toList.head?, c ≠ ' ') :
    opens (l.printed indent) = opens l.text.toList ∧
      closes (l.printed indent) = closes l.text.toList ∧
      header (l.printed indent) = header l.text.toList := by
  have hcontent := (content_printed indent hstart).1
  obtain ⟨c, hc, hblank⟩ := hstart
  obtain ⟨text, htext⟩ := List.head?_eq_some_iff.1 hc
  have hown : content l.text.toList = l.text.toList := by
    rw [htext, content, List.dropWhile_cons_of_neg (by simpa using hblank)]
  have hcloses : closes (l.printed indent) = closes l.text.toList := by
    rw [closes, closes, hcontent, hown]
  refine ⟨?_, hcloses, by rw [header, header, hcloses, hcontent, hown]⟩
  rw [opens, opens, Line.printed, List.getLast?_append, htext]
  simp

end Printing

section Blocks

variable {indent : Nat} {earlier : List Line} {l : Line}

/-- The blocks behind a line are found from those behind the lines in front of it. -/
theorem blocks_append (front : List (List Char)) (line : List Char) :
    blocks (front ++ [line]) = blocksAfter (blocks front) line := by
  simp [blocks]

/-- The depth is counted from line to line: a brace at the end opens a block, and one at the start
closes one. -/
theorem depth_append (front : List (List Char)) (line : List Char) :
    Code.depth (front ++ [line]) =
      Code.depth front + (if opens line then 1 else 0) - (if closes line then 1 else 0) := by
  simp only [Code.depth, List.countP_append, List.countP_singleton]
  split <;> split <;> push_cast <;> omega

/-- What has been emitted up to some line is nested as well. Lines are kept with the last one
first. -/
theorem nested_of_suffix {lines : List Line} (h : Nested lines) (hsuffix : earlier <:+ lines) :
    Nested earlier := by
  induction lines with
  | nil =>
    rw [List.suffix_nil.1 hsuffix]
    trivial
  | cons l lines ih =>
    rcases List.suffix_cons_iff.1 hsuffix with rfl | hsuffix
    · exact h
    · exact ih h.2 hsuffix

/-- The blocks behind lines that fit, and their number. -/
theorem blocks_printed (indent : Nat) (h : Nested earlier) :
    blocks (earlier.reverse.map (Line.printed indent)) = blocksBehind earlier ∧
      Code.depth (earlier.reverse.map (Line.printed indent)) = (blocksBehind earlier).length := by
  induction earlier with
  | nil => exact ⟨rfl, rfl⟩
  | cons l earlier ih =>
    obtain ⟨hblocks, hdepth⟩ := ih h.2
    obtain ⟨hopens, hcloses, hheader⟩ := read_printed indent h.1.start
    have hfits := h.1.depth
    rw [List.reverse_cons, List.map_append, List.map_singleton, blocks_append, depth_append, hblocks,
      hdepth, hopens, hcloses]
    constructor
    · rw [blocksBehind, blocksAfter, blocksAfter, hopens, hcloses, hheader]
    · rw [blocksBehind, blocksAfter]
      cases hopen : opens l.text.toList <;> cases hclose : closes l.text.toList <;>
        simp only [hclose, if_true, if_false, Bool.false_eq_true] at hfits ⊢ <;>
        simp <;> omega

end Blocks

/-- How a line of the generated program is placed behind those in front of it. -/
structure Code.Placed (indent : Nat) (front : List (List Char)) (line : List Char) : Prop where
  depth_nonneg : 0 ≤ Code.depth front
  /-- There are as many open blocks as braces opened and not closed. -/
  blocks : (Code.blocks front).length = Code.depth front
  indented : ((line.takeWhile (· = ' ')).length : Int) =
    indent * (Code.depth front - if closes line then 1 else 0)
  opening : opens line = true → ∃ kind, Opens kind (header line)
  closing : closes line = true → Code.blocks front ≠ []
  jump : isJump (content line) → ∃ header ∈ Code.blocks front, Opens .loop header
  alternative : opens line = true → "else ".toList <+: header line →
    closes line = true ∧ ∃ header ∈ (Code.blocks front).head?, Opens .branch header

/-- A line that fits is placed as it says: it has the blanks of its depth in front, counts the
blocks behind the lines before it, and closes the innermost of them if it starts with a brace. -/
theorem placed_printed (indent : Nat) {earlier : List Line} {l : Line} (h : Nested (l :: earlier)) :
    Placed indent (earlier.reverse.map (Line.printed indent)) (l.printed indent) := by
  obtain ⟨hblocks, hdepth⟩ := blocks_printed indent h.2
  obtain ⟨hopens, hcloses, hheader⟩ := read_printed indent h.1.start
  obtain ⟨hcontent, hblanks⟩ := content_printed indent h.1.start
  have hfits := h.1.depth
  constructor
  · rw [hdepth]
    exact Int.natCast_nonneg _
  · rw [hblocks, hdepth]
  · rw [hblanks, hdepth, hcloses, ← hfits]
    split <;> push_cast <;> simp
  · rw [hopens, hheader]
    exact h.1.opening
  · rw [hcloses, hblocks]
    intro hclose hnil
    rw [hclose, hnil] at hfits
    simp at hfits
  · rw [hcontent, hblocks]
    exact h.1.jump
  · rw [hopens, hcloses, hheader, hblocks]
    exact h.1.alternative

/-- The lines in front of a line of an emission, as they were emitted. -/
theorem exists_of_printed {indent : Nat} {lines : List Line} {front back : List (List Char)}
    {line : List Char} (h : lines.reverse.map (Line.printed indent) = front ++ line :: back) :
    ∃ l earlier, l :: earlier <:+ lines ∧ front = earlier.reverse.map (Line.printed indent) ∧
      line = l.printed indent := by
  obtain ⟨before, behind, hlines, rfl, hbehind⟩ := List.map_eq_append_iff.1 h
  obtain ⟨l, after, rfl, rfl, -⟩ := List.map_eq_cons_iff.1 hbehind
  refine ⟨l, before.reverse, ⟨after.reverse, ?_⟩, by rw [List.reverse_reverse], rfl⟩
  rw [← List.reverse_reverse lines, hlines]
  simp

/-- Lines that are a sequence of nested blocks, none of which is open at the end. -/
structure Code.IsNested (indent : Nat) (ls : List (List Char)) : Prop where
  closed : Code.depth ls = 0
  placed : ∀ front line back, ls = front ++ line :: back → Placed indent front line

/-- The open scopes around the lines of a statement: those behind a brace that opens a block, and
else those before the statement. -/
def Statement.around (s : Statement) (e e' : Emission) : Scopes :=
  if s.kind = .opening then e'.scopes else e.scopes

/-- Of the lines of a program, those that the step from `e` to `e'` adds stand inside the blocks of the
scopes around its statement, braces aside. -/
def Statement.StandsInside (s : Statement) (e e' : Emission) (ls : List (List Char)) : Prop :=
  ∀ front line back, ls = front ++ line :: back →
    e.lines.length ≤ front.length → front.length < e'.lines.length →
    opens line = false → closes line = false → Inside (s.around e e') (blocks front)

/-- Behind its first two lines, the program that a source compiles to holds the lines that its
statements emit, one by one. They are a sequence of nested blocks, and every statement of the source
stands in those of the scopes around it. -/
theorem Source.compile_nests {source : Source} {options : Options} {artifact : Artifact}
    (h : source.compile options = .ok artifact) :
    ∃ body ls, artifact.code = "#include \"" ++ options.runtimeHeader ++ "\"\n\n" ++ body ∧
      lines body.toList = ls ++ [[]] ∧ IsNested options.indent ls ∧
      ∃ tokens statements last, source.significant = .ok tokens ∧
        source.statements tokens = .ok statements ∧
        source.emission options.denyWarnings statements = .ok last ∧
        ls = last.lines.reverse.map (Line.printed options.indent) ∧
        ∀ before s after, statements = before ++ s :: after →
          ∃ e e', Emission.run options.denyWarnings {} before = .ok e ∧
            e.step options.denyWarnings s = .ok e' ∧ s.StandsInside e e' ls := by
  obtain ⟨tokens, statements, last, htokens, hstatements, hemission, hcode, -⟩ := eq_of_compile h
  obtain ⟨hrun, hunfinished⟩ := eq_of_emission hemission
  have hwritten := written_of_statements htokens hstatements
  have hend := (Emission.structured_empty.run hwritten hrun).1.mirrors
  have hline : ∀ l ∈ last.lines.reverse, isOneLine l.text = true := by
    intro l hl
    obtain ⟨after, before, hlines⟩ := List.append_of_mem (List.mem_reverse.1 hl)
    exact (nested_of_suffix hend.nested ⟨after, hlines.symm⟩).1.line
  refine ⟨_, last.lines.reverse.map (Line.printed options.indent), hcode, lines_join hline, ⟨?_, ?_⟩,
    tokens, statements, last, htokens, hstatements, hemission, rfl, ?_⟩
  · have hclosed : last.scopes.depth = 0 := by
      unfold Emission.unfinished? at hunfinished
      split at hunfinished
      · cases hunfinished
      · split at hunfinished
        · cases hunfinished
        · omega
    rw [(blocks_printed options.indent hend.nested).2, hend.length, hclosed]
    rfl
  · intro front line back hls
    obtain ⟨l, earlier, hsuffix, rfl, rfl⟩ := exists_of_printed hls
    exact placed_printed options.indent (nested_of_suffix hend.nested hsuffix)
  · rintro before s after rfl
    rw [List.forall_mem_append, List.forall_mem_cons] at hwritten
    obtain ⟨hbefore, hs, hafter⟩ := hwritten
    obtain ⟨e, e', hrunBefore, hstep, hrunAfter⟩ := Emission.run_append hrun
    refine ⟨e, e', hrunBefore, hstep, fun front line back hls hfrom hto hopens hcloses => ?_⟩
    obtain ⟨hstructured, -⟩ := Emission.structured_empty.run hbefore hrunBefore
    obtain ⟨hnext, hgrows⟩ := hstructured.step hs hstep
    obtain ⟨-, hstays⟩ := hnext.run hafter hrunAfter
    obtain ⟨l, earlier, hsuffix, rfl, rfl⟩ := exists_of_printed hls
    obtain ⟨hnested, hearlier⟩ := nested_of_suffix hend.nested hsuffix
    obtain ⟨hopen, hclose, -⟩ := read_printed options.indent hnested.start
    rw [hopen] at hopens
    rw [hclose] at hcloses
    rw [List.length_map, List.length_reverse] at hfrom hto
    rw [(blocks_printed options.indent hearlier).1]
    -- The line is one that the statement emitted, for nothing behind it has changed it.
    exact hgrows.inside (hstays.line l earlier hsuffix hto hcloses) hfrom hopens hcloses

/-- A program with a string of braces, all branches of an `if` inside a loop, and a call that is
unpacked. -/
private def bracedLoop : Source :=
  ⟨"braced", "main\x7bvar s=\"\x7d\n\x7b\";for var i=0;3\x7bif i>1\x7bbreak\x7delse if i>0\x7bprint(s)\x7d" ++
    "else\x7bvar a,b=divmod(7,2)\x7d\x7d\x7d"⟩

/-- The string opens and closes no block, and the call is unpacked inside braces of its own. -/
theorem bracedLoop_compile_nests :
    ∃ artifact, bracedLoop.compile {} = .ok artifact ∧
      ∃ body ls, artifact.code = "#include \"" ++ ({} : Options).runtimeHeader ++ "\"\n\n" ++ body ∧
        lines body.toList = ls ++ [[]] ∧ IsNested ({} : Options).indent ls ∧
        ∃ tokens statements last, bracedLoop.significant = .ok tokens ∧
          bracedLoop.statements tokens = .ok statements ∧
          bracedLoop.emission false statements = .ok last ∧
          ls = last.lines.reverse.map (Line.printed ({} : Options).indent) ∧
          ∀ before s after, statements = before ++ s :: after →
            ∃ e e', Emission.run false {} before = .ok e ∧ e.step false s = .ok e' ∧
              s.StandsInside e e' ls := by
  have hisOk : (bracedLoop.compile {}).isOk = true := by decide +kernel
  obtain ⟨artifact, hcompile⟩ := exists_eq_ok_of_isOk hisOk
  exact ⟨artifact, hcompile, Source.compile_nests hcompile⟩

end Sprout
