import Mathlib.Data.List.Forall2
import Sprout.Proofs.Blocks.Sentences

namespace Sprout

namespace Code

/-- A line without the blanks in front of it. -/
def content (line : List Char) : List Char :=
  line.dropWhile (· = ' ')

/-- Whether a line opens a block: it ends with a brace. Whether it closes one is seen at its front,
so that it may do both. -/
def opens (line : List Char) : Bool :=
  line.getLast? = some '\x7b'

/-- Whether a line closes a block: it starts with a brace. -/
def closes (line : List Char) : Bool :=
  (content line).head? = some '\x7d'

/-- The header of the block that a line opens. A brace in front of it, and the blank behind that,
belong to the block that the line closes. -/
def header (line : List Char) : List Char :=
  if closes line then (content line).drop 2 else content line

/-- The headers of the blocks that are open behind a line, the innermost first, where `before` are
those that are open before it. -/
def blocksAfter (before : List (List Char)) (line : List Char) : List (List Char) :=
  let left := if closes line then before.tail else before
  if opens line then header line :: left else left

/-- The headers of the blocks that are open behind lines. -/
def blocks (lines : List (List Char)) : List (List Char) :=
  lines.foldl blocksAfter []

/-- The number of lines that open a block, less the number of those that close one. -/
def depth (lines : List (List Char)) : Int :=
  lines.countP opens - lines.countP closes

/-- `Opens kind header`: the header is one of a block of the kind, without an `else`. -/
inductive OpensFresh : Scope.Kind → String → Prop
  | main : OpensFresh .main "int main(int argc, char** argv) \x7b"
  | branch (condition : String) : OpensFresh .branch ("if (" ++ condition ++ ") \x7b")
  | whileLoop (condition : String) : OpensFresh .loop ("while (" ++ condition ++ ") \x7b")
  | forLoop (args : String) : OpensFresh .loop ("RT_FOR(" ++ args ++ ") \x7b")
  | plain : OpensFresh .plain "\x7b"

/-- The header is one of a block of the kind, with an `else`. -/
inductive OpensElse : Scope.Kind → String → Prop
  | branch (condition : String) : OpensElse .branch ("else if (" ++ condition ++ ") \x7b")
  | alternative : OpensElse .alternative "else \x7b"

/-- The header is one of a block of the kind. -/
def Opens (kind : Scope.Kind) (header : List Char) : Prop :=
  ∃ text : String, header = text.toList ∧ (OpensFresh kind text ∨ OpensElse kind text)

section Lines

variable {text : String} {kind : Scope.Kind}

/-- What starts flush has no blanks in front, and closes no block, because neither a blank nor a
closing brace is its first character. -/
theorem content_of_isFlush (h : Target.isFlush text = true) :
    content text.toList = text.toList ∧ closes text.toList = false := by
  have hcontent : content text.toList = text.toList := by
    unfold Target.isFlush at h
    unfold content
    cases htext : text.toList with
    | nil => rfl
    | cons c more =>
      rw [htext] at h
      simp only [List.head?_cons, Option.any_some, Bool.and_eq_true, decide_eq_true_eq] at h
      rw [List.dropWhile_cons_of_neg (by simp [h.1])]
  refine ⟨hcontent, ?_⟩
  unfold closes
  rw [hcontent]
  unfold Target.isFlush at h
  cases htext : text.toList with
  | nil => rfl
  | cons c more =>
    rw [htext] at h
    simp only [List.head?_cons, Option.any_some, Bool.and_eq_true, decide_eq_true_eq] at h
    simp [h.2]

/-- The first line of a block starts with a word, so no blank and no brace stands in front of it. -/
theorem OpensFresh.isFlush (h : OpensFresh kind text) : Target.isFlush text = true := by
  cases h with
  | main | plain => rfl
  | branch | whileLoop | forLoop =>
    rw [Target.isFlush_append, Target.isFlush_append]
    rfl

/-- A line opens a block if it ends with the brace, whatever stands in front of it. -/
theorem opens_append (text : String) {more : String} (h : opens more.toList = true) :
    opens (text ++ more).toList = true := by
  unfold opens at h ⊢
  rw [decide_eq_true_eq] at h ⊢
  rw [String.toList_append, List.getLast?_append, h]
  rfl

/-- The first line of a block ends with its brace. -/
theorem OpensFresh.opens (h : OpensFresh kind text) : opens text.toList = true := by
  cases h with
  | main | plain => rfl
  | branch | whileLoop | forLoop => exact opens_append _ rfl

/-- The line of an `else` ends with its brace. -/
theorem OpensElse.opens (h : OpensElse kind text) : Code.opens text.toList = true := by
  cases h with
  | branch => exact opens_append _ rfl
  | alternative => rfl

/-- No header without an `else` starts with one. -/
theorem OpensFresh.not_else (h : OpensFresh kind text) : ¬ "else ".toList <+: text.toList := by
  cases h <;> simp [String.toList_append]

/-- A header in a line of its own opens its block. -/
theorem OpensFresh.blocksAfter (h : OpensFresh kind text) (before : List (List Char)) :
    blocksAfter before text.toList = text.toList :: before := by
  obtain ⟨hcontent, hcloses⟩ := content_of_isFlush h.isFlush
  simp only [Code.blocksAfter, header, hcloses, h.opens, hcontent, if_true, Bool.false_eq_true,
    if_false]

/-- Behind a brace that closes a block, the header opens another one. -/
theorem OpensElse.blocksAfter (h : OpensElse kind text) (before : List (List Char)) :
    blocksAfter before ("\x7d " ++ text).toList = text.toList :: before.tail ∧
      closes ("\x7d " ++ text).toList = true ∧ header ("\x7d " ++ text).toList = text.toList := by
  have hcontent : content ("\x7d " ++ text).toList = '\x7d' :: ' ' :: text.toList := by
    rw [String.toList_append]
    rfl
  have hcloses : closes ("\x7d " ++ text).toList = true := by rw [closes, hcontent]; rfl
  have hopens := opens_append "\x7d " h.opens
  have hheader : header ("\x7d " ++ text).toList = text.toList := by
    rw [header, if_pos hcloses, hcontent]
    rfl
  refine ⟨?_, hcloses, hheader⟩
  simp only [Code.blocksAfter, hcloses, hopens, hheader, if_true]

example : blocks ["while (a) \x7b".toList, "    if (b) \x7b".toList, "    \x7d else \x7b".toList] =
    ["else \x7b".toList, "while (a) \x7b".toList] := by
  rfl

/-- What starts flush and ends with a semicolon opens and closes nothing. -/
theorem not_opens_of_isEnded (h : Target.isEnded text = true) : opens text.toList = false := by
  have hended : text.toList.getLast? = some ';' := by simpa [Target.isEnded] using h
  simp [opens, hended]

/-- A line that starts flush and ends with a semicolon opens no block and closes none. -/
theorem blocksAfter_of_isEnded (hsolid : Target.isSolid text = true)
    (hended : Target.isEnded text = true) (before : List (List Char)) :
    blocksAfter before text.toList = before := by
  obtain ⟨-, hcloses⟩ := content_of_isFlush (Target.isSolid_iff.1 hsolid).1
  simp [blocksAfter, hcloses, not_opens_of_isEnded hended]

/-- A closing brace by itself closes a block. -/
theorem closes_brace : closes "\x7d".toList = true := by
  rfl

/-- A closing brace by itself opens no block. -/
theorem not_opens_brace : opens "\x7d".toList = false := by
  rfl

/-- Behind a closing brace, the blocks are those around the innermost one. -/
theorem blocksAfter_brace (before : List (List Char)) :
    blocksAfter before "\x7d".toList = before.tail := by
  simp only [blocksAfter, closes_brace, not_opens_brace, if_true, Bool.false_eq_true, if_false]

end Lines

/-- The headers of the blocks that are open behind lines, the latest of which is in front. -/
def blocksBehind : List Line → List (List Char)
  | [] => []
  | l :: earlier => blocksAfter (blocksBehind earlier) l.text.toList

/-- The lines that leave a loop. -/
def isJump (text : List Char) : Prop :=
  text = "break;".toList ∨ text = "continue;".toList

/-- A jump opens no block and closes none. -/
theorem not_opens_of_isJump {text : List Char} (h : isJump text) :
    opens text = false ∧ closes text = false := by
  rcases h with rfl | rfl <;> exact ⟨rfl, rfl⟩

/-- How a line fits where the blocks with the headers `before` are open: it is as deep as there are
blocks around it, opens a block of some kind if any, leaves a loop only inside one, and goes on from
an `if` only behind its block. -/
structure Fits (before : List (List Char)) (l : Line) : Prop where
  line : Target.isOneLine l.text = true
  start : ∃ c ∈ l.text.toList.head?, c ≠ ' '
  depth : l.depth + (if closes l.text.toList then 1 else 0) = before.length
  opening : opens l.text.toList = true → ∃ kind, Opens kind (header l.text.toList)
  jump : isJump l.text.toList → ∃ h ∈ before, Opens .loop h
  alternative : opens l.text.toList = true → "else ".toList <+: header l.text.toList →
    closes l.text.toList = true ∧ ∃ h ∈ before.head?, Opens .branch h

/-- Lines that fit one behind the other, the latest in front. -/
def Nested : List Line → Prop
  | [] => True
  | l :: earlier => Fits (blocksBehind earlier) l ∧ Nested earlier

/-- Lines that fit, behind which the blocks of the open scopes are open. The outermost scope, which is
global, has no block. -/
structure Mirrors (scopes : Scopes) (lines : List Line) : Prop where
  nested : Nested lines
  outermost : scopes.kinds.getLast? = some .global
  blocks : List.Forall₂ Opens scopes.kinds.dropLast (blocksBehind lines)

section Mirrors

variable {scopes scopes' : Scopes} {lines : List Line} {text : String} {kind : Scope.Kind}

/-- Opening a block adds its kind to those of the blocks around it. The global scope has no
block. -/
theorem kinds_dropLast_enter (scopes : Scopes) (kind : Scope.Kind) :
    (scopes.enter kind).kinds.dropLast = kind :: scopes.kinds.dropLast := by
  simp [Scopes.enter, Scopes.kinds, Scopes.all]

/-- There are as many open blocks as open scopes besides the global one. -/
theorem Mirrors.length (h : Mirrors scopes lines) :
    (blocksBehind lines).length = scopes.depth := by
  rw [← h.blocks.length_eq]
  simp [Scopes.kinds, Scopes.all, Scopes.depth]

/-- Before the first line nothing is open but the global scope. -/
theorem mirrors_nil : Mirrors {} [] :=
  ⟨trivial, rfl, .nil⟩

/-- Opening and closing scopes leaves the outermost one as it is. -/
theorem outermost_cons {outer : Scope} {others : List Scope} (scope : Scope) :
    (⟨scope, outer :: others⟩ : Scopes).kinds.getLast? = (⟨outer, others⟩ : Scopes).kinds.getLast? := by
  simp [Scopes.kinds, Scopes.all]

/-- A loop that is open has its block. -/
theorem Mirrors.loop (h : Mirrors scopes lines) (hloop : scopes.inLoop = true) :
    ∃ header ∈ blocksBehind lines, Opens .loop header := by
  have hmem : Scope.Kind.loop ∈ scopes.kinds := by
    rw [Scopes.inLoop, List.contains_iff_mem] at hloop
    exact List.takeWhile_subset _ hloop
  have hblock : Scope.Kind.loop ∈ scopes.kinds.dropLast := by
    rw [← List.dropLast_append_getLast? _ h.outermost] at hmem
    simpa using hmem
  have hblocks := h.blocks
  generalize scopes.kinds.dropLast = kinds at hblock hblocks
  generalize blocksBehind lines = headers at hblocks
  induction hblocks with
  | nil => cases hblock
  | cons hopens _ ih =>
    rcases List.mem_cons.1 hblock with rfl | hblock
    · exact ⟨_, List.mem_cons_self .., hopens⟩
    · obtain ⟨header, hheader, hopens⟩ := ih hblock
      exact ⟨header, List.mem_cons_of_mem _ hheader, hopens⟩

/-- A text that starts flush has a first character, and it is no blank. -/
theorem exists_head_of_isFlush (h : Target.isFlush text = true) :
    ∃ c ∈ text.toList.head?, c ≠ ' ' := by
  obtain ⟨c, hc, hflush⟩ := (Option.any_eq_true _ _).1 h
  simp only [Bool.and_eq_true, decide_eq_true_eq] at hflush
  exact ⟨c, hc, hflush.1⟩

/-- A line that ends with a semicolon may stand anywhere, a jump only inside a loop. -/
theorem fits_of_isEnded {before : List (List Char)} (hsolid : Target.isSolid text = true)
    (hended : Target.isEnded text = true)
    (hjump : isJump text.toList → ∃ h ∈ before, Opens .loop h) :
    Fits before ⟨before.length, text⟩ := by
  obtain ⟨hflush, hline⟩ := Target.isSolid_iff.1 hsolid
  obtain ⟨-, hcloses⟩ := content_of_isFlush hflush
  have hopens : ¬ opens text.toList = true := by simp [not_opens_of_isEnded hended]
  exact ⟨hline, exists_head_of_isFlush hflush, by simp [hcloses], fun h => absurd h hopens, hjump,
    fun h => absurd h hopens⟩

/-- A sentence is no jump. -/
theorem not_isJump (h : Target.IsSentence text) : ¬ isJump text.toList := by
  have hcompound := h.compound
  rintro (hjump | hjump) <;> rw [String.toList_inj.1 hjump] at hcompound <;> cases hcompound

/-- A line that opens and closes nothing, such as a sentence. -/
theorem Mirrors.line (h : Mirrors scopes lines) (hsolid : Target.isSolid text = true)
    (hended : Target.isEnded text = true)
    (hjump : isJump text.toList → ∃ h ∈ blocksBehind lines, Opens .loop h) :
    Mirrors scopes (⟨scopes.depth, text⟩ :: lines) := by
  have hfits := fits_of_isEnded hsolid hended hjump
  rw [h.length] at hfits
  refine ⟨⟨hfits, h.nested⟩, h.outermost, ?_⟩
  rw [blocksBehind, blocksAfter_of_isEnded hsolid hended]
  exact h.blocks

/-- A sentence at the depth of the open scopes leaves the blocks as they are. -/
theorem Mirrors.sentence (h : Mirrors scopes lines) (htext : Target.IsSentence text) :
    Mirrors scopes (⟨scopes.depth, text⟩ :: lines) :=
  h.line htext.solid htext.ended fun hjump => absurd hjump (not_isJump htext)

/-- A header opens the block of a new scope. -/
theorem Mirrors.enter (h : Mirrors scopes lines) (hopens : OpensFresh kind text)
    (hline : Target.isOneLine text = true) :
    Mirrors (scopes.enter kind) (⟨scopes.depth, text⟩ :: lines) := by
  obtain ⟨hcontent, hcloses⟩ := content_of_isFlush hopens.isFlush
  have hbrace := hopens.opens
  have hheader : header text.toList = text.toList := by
    rw [header, if_neg (by simp [hcloses]), hcontent]
  have hown : Opens kind text.toList := ⟨text, rfl, .inl hopens⟩
  refine ⟨⟨⟨hline, exists_head_of_isFlush hopens.isFlush, by simp [hcloses, h.length],
    fun _ => ⟨kind, hheader.symm ▸ hown⟩, ?_, ?_⟩, h.nested⟩,
    (outermost_cons _).trans h.outermost, ?_⟩
  · intro hjump
    rw [(not_opens_of_isJump hjump).1] at hbrace
    cases hbrace
  · intro _ helse
    rw [hheader] at helse
    exact absurd helse hopens.not_else
  · rw [blocksBehind, hopens.blocksAfter, kinds_dropLast_enter]
    exact .cons hown h.blocks

/-- A closing brace closes the block of the innermost scope. Its line stands one block further out,
and leaves the blocks of the scopes around it open. -/
theorem Mirrors.leave {closed : Scope} (h : Mirrors scopes lines)
    (hleave : scopes.leave = .ok (closed, scopes')) :
    Mirrors scopes' (⟨scopes'.depth, "\x7d"⟩ :: lines) ∧
      ∃ header outer, blocksBehind lines = header :: outer ∧ Opens closed.kind header := by
  have hkinds := Scopes.kinds_of_leave hleave
  have houtermost : scopes'.kinds.getLast? = some .global := by
    have houtermost := h.outermost
    rwa [hkinds, Scopes.kinds, Scopes.all, List.map_cons, List.getLast?_cons_cons] at houtermost
  have hblocks : List.Forall₂ Opens (closed.kind :: scopes'.kinds.dropLast) (blocksBehind lines) := by
    have hblocks := h.blocks
    rwa [hkinds] at hblocks
  cases hbefore : blocksBehind lines with
  | nil => rw [hbefore] at hblocks; cases hblocks
  | cons header left =>
    rw [hbefore, List.forall₂_cons] at hblocks
    have hdepth : (header :: left).length - 1 = scopes'.depth := by
      rw [← hbefore, h.length, ← Scopes.depth_of_leave hleave, Nat.add_sub_cancel]
    have hline : Target.isOneLine "\x7d" = true := rfl
    refine ⟨⟨⟨⟨hline, ⟨'\x7d', by simp, by decide⟩, ?_, ?_, ?_, ?_⟩, h.nested⟩,
      houtermost, ?_⟩, header, left, rfl, hblocks.1⟩
    · rw [closes_brace, hbefore, ← hdepth]
      rfl
    · exact fun hopens => absurd (not_opens_brace.symm.trans hopens) (by decide)
    · exact fun hjump => absurd (closes_brace.symm.trans (not_opens_of_isJump hjump).2) (by decide)
    · exact fun hopens => absurd (not_opens_brace.symm.trans hopens) (by decide)
    · rw [blocksBehind, hbefore, blocksAfter_brace]
      exact hblocks.2

/-- An `else` opens another block behind the brace that closed that of an `if`. The one line does
both, so it stands as deep as the brace did. -/
theorem Mirrors.extend {depth : Nat} {branch : List Char} {outer : List (List Char)}
    (h : Mirrors scopes (⟨depth, "\x7d"⟩ :: lines)) (hbranch : blocksBehind lines = branch :: outer)
    (hopened : Opens .branch branch) (hopens : OpensElse kind text)
    (hline : Target.isOneLine text = true) :
    Mirrors (scopes.enter kind) (⟨depth, "\x7d" ++ (" " ++ text)⟩ :: lines) := by
  obtain ⟨hblocks, hcloses, hheader⟩ := hopens.blocksAfter (blocksBehind lines)
  obtain ⟨hfits, hnested⟩ := h.nested
  have hmirrored := h.blocks
  have hbrace : blocksBehind (⟨depth, "\x7d"⟩ :: lines) = outer := by
    rw [blocksBehind, hbranch, blocksAfter_brace]
    rfl
  have hsame : "\x7d" ++ (" " ++ text) = "\x7d " ++ text := by
    rw [← String.append_assoc]
    rfl
  have hown : Opens kind text.toList := ⟨text, rfl, .inr hopens⟩
  rw [hsame]
  refine ⟨⟨⟨?_, ?_, ?_, fun _ => ⟨kind, hheader.symm ▸ hown⟩, ?_, ?_⟩, hnested⟩,
    (outermost_cons _).trans h.outermost, ?_⟩
  · rw [Target.isOneLine_append, hline]
    rfl
  · exact ⟨'\x7d', by simp, by decide⟩
  · have hdepth := hfits.depth
    rw [closes_brace] at hdepth
    rw [hcloses]
    exact hdepth
  · exact fun hjump => absurd (hcloses.symm.trans (not_opens_of_isJump hjump).2) (by decide)
  · intro _ _
    exact ⟨hcloses, branch, by simp [hbranch], hopened⟩
  · rw [blocksBehind, hblocks, hbranch, kinds_dropLast_enter]
    rw [hbrace] at hmirrored
    exact .cons hown hmirrored

end Mirrors

end Code

end Sprout
