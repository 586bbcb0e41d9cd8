import Sprout.Proofs.Emission.InnerLines

namespace Sprout

/-- The kinds of the blocks that stand inside the main block. -/
def Scope.Kind.isInner : Scope.Kind → Bool
  | branch | alternative | loop | plain => true
  | global | main => false

/-- The header of a block inside the main block: its block is of a kind that stands there, and its
text is not that of the main block. The main block itself is opened once, by the word that announces
it and the brace behind that word. -/
def Header.IsInner : Header → Prop
  | .main => False
  | .block kind text _ => kind.isInner = true ∧ Target.IsForeign text
  | .loop _ => True

/-- The open scopes of a program: the global one alone, or the main block in it, and any blocks inside
the main block. -/
def Scopes.IsProgram (s : Scopes) : Prop :=
  s.kinds = [.global] ∨
    ∃ inner : List Scope.Kind, s.kinds = inner ++ [.main, .global] ∧ ∀ kind ∈ inner, kind.isInner = true

namespace Emission

/-- How often the main block has been opened. -/
def mainLines (e : Emission) : Nat :=
  e.lines.countP Line.opensMain

/-- The shape of one main block. -/
structure HasOneMain (e : Emission) : Prop where
  scopes : e.scopes.IsProgram
  seen : 0 < e.scopes.depth → e.seenMain = true
  once : e.mainLines ≤ 1
  pending : ∀ header, e.pending = some header → header ≠ .main → 0 < e.scopes.depth
  inMain : e.scopes.inMain = true ↔ 0 < e.scopes.depth

end Emission

section Scopes

variable {s s' : Scopes}

/-- The global scope counts among the open scopes, and not in their depth. -/
theorem Scopes.length_kinds (s : Scopes) : s.kinds.length = s.depth + 1 := by
  simp [kinds, all, depth]

/-- A program whose global scope is the only one, or that is inside its main block. -/
theorem Scopes.IsProgram.cases (h : s.IsProgram) :
    (s.depth = 0 ∧ s.kinds = [.global] ∧ s.inMain = false) ∨
      (0 < s.depth ∧ s.inMain = true ∧ ∃ inner : List Scope.Kind,
        s.kinds = inner ++ [.main, .global] ∧ ∀ kind ∈ inner, kind.isInner = true) := by
  have hlength := length_kinds s
  rcases h with hglobal | ⟨inner, hinner, hkinds⟩
  · refine .inl ⟨?_, hglobal, by simp [inMain, hglobal]⟩
    rw [hglobal, List.length_singleton] at hlength
    omega
  · refine .inr ⟨?_, by simp [inMain, hinner], inner, hinner, hkinds⟩
    rw [hinner, List.length_append] at hlength
    simp only [List.length_cons, List.length_nil] at hlength
    omega

/-- Inside the global scope everything is inside the main block. -/
theorem Scopes.IsProgram.inMain_iff (h : s.IsProgram) : s.inMain = true ↔ 0 < s.depth := by
  rcases h.cases with ⟨hdepth, -, hmain⟩ | ⟨hdepth, hmain, -⟩
  · simp [hdepth, hmain]
  · simp [hdepth, hmain]

/-- What the scopes declare does not matter. -/
theorem Scopes.IsProgram.congr (h : s.IsProgram) (hkinds : s'.kinds = s.kinds) : s'.IsProgram := by
  rwa [IsProgram, hkinds]

/-- The main block is opened in the global scope. -/
theorem Scopes.IsProgram.enter_main (h : s.IsProgram) (hdepth : s.depth = 0) :
    (s.enter .main).IsProgram := by
  rcases h.cases with ⟨-, hglobal, -⟩ | ⟨hinside, -⟩
  · refine .inr ⟨[], ?_, by simp⟩
    change Scope.Kind.main :: s.kinds = _
    rw [hglobal]
    rfl
  · omega

/-- Other blocks are opened inside the main block. -/
theorem Scopes.IsProgram.enter {kind : Scope.Kind} (h : s.IsProgram) (hdepth : 0 < s.depth)
    (hkind : kind.isInner = true) : (s.enter kind).IsProgram := by
  rcases h.cases with ⟨hglobal, -⟩ | ⟨-, -, inner, hinner, hkinds⟩
  · omega
  · refine .inr ⟨kind :: inner, ?_, List.forall_mem_cons.2 ⟨hkind, hkinds⟩⟩
    change kind :: s.kinds = _
    rw [hinner]
    rfl

/-- Closing the innermost block leaves a program. -/
theorem Scopes.IsProgram.leave {closed : Scope} (h : s.IsProgram)
    (hleave : s.leave = .ok (closed, s')) : s'.IsProgram ∧ 0 < s.depth := by
  have hkinds := kinds_of_leave hleave
  have hlength := length_kinds s
  have hlength' := length_kinds s'
  rw [hkinds, List.length_cons] at hlength
  have hdepth : 0 < s.depth := by omega
  refine ⟨?_, hdepth⟩
  rcases h.cases with ⟨hglobal, -⟩ | ⟨-, -, inner, hinner, hinside⟩
  · omega
  · rw [hkinds] at hinner
    cases inner with
    | nil => exact .inl (List.cons.inj hinner).2
    | cons kind inner =>
      exact .inr ⟨inner, (List.cons.inj hinner).2, (List.forall_mem_cons.1 hinside).2⟩

end Scopes

namespace Emission

variable {deny : Bool} {e e' : Emission} {s : Statement}

/-- What is kept while statements are emitted: the main block is announced before it is opened, and a
header of another block is read inside it. -/
structure KeepsMain (e : Emission) : Prop where
  scopes : e.scopes.IsProgram
  seen : 0 < e.scopes.depth → e.seenMain = true
  once : e.mainLines ≤ 1
  unseen : e.seenMain = false → e.mainLines = 0
  announced : e.pending = some .main →
    e.scopes.depth = 0 ∧ e.seenMain = true ∧ e.mainLines = 0
  header : ∀ header, e.pending = some header → header ≠ .main →
    0 < e.scopes.depth ∧ header.IsInner

/-- Before the first statement, the main block has neither been announced nor opened. -/
theorem keepsMain_empty : KeepsMain {} where
  scopes := .inl rfl
  seen := by simp [Scopes.depth]
  once := by simp [mainLines]
  unseen := fun _ => rfl
  announced := by simp
  header := by simp

/-- The invariant says that the main block has been opened once at most, and that everything is
inside it once it has been. -/
theorem KeepsMain.hasOneMain (h : e.KeepsMain) : e.HasOneMain :=
  ⟨h.scopes, h.seen, h.once, fun header hpending hother => (h.header header hpending hother).1,
    h.scopes.inMain_iff⟩

/-- Once the main block has been announced, nothing else is asked for while no header waits. -/
theorem KeepsMain.of_free (hscopes : e.scopes.IsProgram) (hseen : e.seenMain = true)
    (honce : e.mainLines ≤ 1) (hpending : e.pending = none) : e.KeepsMain where
  scopes := hscopes
  seen := fun _ => hseen
  once := honce
  unseen := by simp [hseen]
  announced := by simp [hpending]
  header := by simp [hpending]

/-- What a statement adds is lines inside the main block, maybe with names. -/
def Adds (e e' : Emission) : Prop :=
  ∃ body scopes diagnostics, Lines.AreInner body ∧ scopes.kinds = e.scopes.kinds ∧
    e' = { e with scopes, diagnostics, lines := Line.emitted e.scopes.depth body ++ e.lines }

/-- Inner lines keep the main block as it is. -/
theorem KeepsMain.adds (h : e.KeepsMain) (hadds : Adds e e') : e'.KeepsMain := by
  obtain ⟨body, scopes, diagnostics, hbody, hkinds, rfl⟩ := hadds
  have hdepth := depth_eq_of_kinds hkinds
  have hcount : ∀ depth,
      (Line.emitted depth body ++ e.lines).countP Line.opensMain = e.mainLines := by
    intro depth
    rw [List.countP_append, hbody.countP_emitted, Nat.zero_add, mainLines]
  constructor
  · exact h.scopes.congr hkinds
  · rw [hdepth]
    exact h.seen
  · rw [mainLines, hcount]
    exact h.once
  · rw [mainLines, hcount]
    exact h.unseen
  · rw [mainLines, hcount, hdepth]
    exact h.announced
  · rw [hdepth]
    exact h.header

/-- A line that is added alone. -/
theorem adds_line {text : String} (h : Target.isEnded text = true) : Adds e (e.line text) :=
  ⟨[.flat text], e.scopes, e.diagnostics, .cons (Line.not_opensMain_of_isEnded h) Lines.areInner_nil,
    rfl, rfl⟩

/-- A declaration adds inner lines. -/
theorem declaration_adds (h : e.declaration deny s = .ok e') : Adds e e' := by
  obtain ⟨d, plan, bound, -, -, hplan, hbind, rfl⟩ := eq_of_declaration h
  obtain ⟨scopes, diagnostics, hkinds, rfl⟩ := eq_of_bind hbind
  refine ⟨plan.lines, scopes, diagnostics, areInner_of_plan hplan, hkinds, ?_⟩
  rw [← depth_eq_of_kinds hkinds]
  rfl

/-- Expressions evaluated for their effect add inner lines. -/
theorem operation_adds (h : e.operation deny s = .ok e') : Adds e e' := by
  obtain ⟨es, lines, -, hlines, rfl⟩ := eq_of_operation h
  exact ⟨lines, _, _, areInner_of_operationLines hlines, rfl, rfl⟩

/-- An assignment adds inner lines. -/
theorem assignment_adds (h : e.assignment deny s = .ok e') : Adds e e' := by
  obtain ⟨a, lines, -, hlines, rfl⟩ := eq_of_assignment h
  exact ⟨lines, _, _, areInner_of_lines hlines, rfl, rfl⟩

/-- A `break` or a `continue` adds one inner line. -/
theorem jump_adds (h : e.jump s = .ok e') : Adds e e' := by
  obtain ⟨-, -, rfl⟩ := eq_of_jump h
  exact adds_line (Target.isEnded_append _ rfl)

/-- A `return` adds one inner line. -/
theorem result_adds (h : e.result s = .ok e') : Adds e e' := by
  obtain ⟨-, text, -, rfl⟩ := eq_of_result h
  exact adds_line (Target.isEnded_append _ rfl)

/-- What a statement adds is the header of a block inside the main block, which waits for its
brace. -/
def Awaits (e e' : Emission) : Prop :=
  ∃ (header : Header) (diagnostics : List Diagnostic), header.IsInner ∧
    e' = { e with pending := some header, diagnostics }

/-- A header that is not the one of the main block waits for its brace inside it. -/
theorem KeepsMain.awaits (h : e.KeepsMain) (hdepth : 0 < e.scopes.depth) (hawaits : Awaits e e') :
    e'.KeepsMain := by
  obtain ⟨header, diagnostics, hinner, rfl⟩ := hawaits
  constructor
  · exact h.scopes
  · exact h.seen
  · exact h.once
  · exact h.unseen
  · intro hannounced
    rw [Option.some.inj hannounced] at hinner
    exact hinner.elim
  · intro waiting hwaiting _
    exact ⟨hdepth, Option.some.inj hwaiting ▸ hinner⟩

/-- No condition and no loop announces the main block. -/
theorem isInner_of_headerOf {scopes : Scopes} {header : Header}
    (h : (headerOf scopes s).outcome = .ok header) : header.IsInner := by
  rcases headerOf_cases h with ⟨-, text, -, rfl⟩ | ⟨-, text, -, rfl⟩ | ⟨-, -, loop, -, rfl⟩
  · exact ⟨rfl, 'f', by simp, by decide⟩
  · exact ⟨rfl, 'w', by simp, by decide⟩
  · trivial

/-- No `else` announces the main block. -/
theorem isInner_of_alternativeOf {scopes : Scopes} {header : Header}
    (h : (alternativeOf scopes s).outcome = .ok header) : header.IsInner := by
  rcases alternativeOf_cases h with ⟨-, rfl⟩ | ⟨next, run, text, -, -, -, rfl⟩ <;>
    exact ⟨rfl, 'l', by simp, by decide⟩

/-- A block header waits for its brace and adds nothing. -/
theorem header_awaits (h : e.header deny s = .ok e') : Awaits e e' := by
  obtain ⟨waiting, hwaiting, rfl⟩ := eq_of_header h
  exact ⟨waiting, _, isInner_of_headerOf hwaiting, rfl⟩

/-- An `else` waits for its brace and adds nothing. -/
theorem alternative_awaits {closed : Option Scope.Kind} (h : e.alternative deny closed s = .ok e') :
    Awaits e e' := by
  obtain ⟨-, waiting, hwaiting, rfl⟩ := eq_of_alternative h
  exact ⟨waiting, _, isInner_of_alternativeOf hwaiting, rfl⟩

/-- A clause is read behind the first clause of its loop. -/
theorem clause_awaits {part : Clause} (h : e.clause deny part s = .ok e') :
    Awaits e e' ∧ ∃ header, e.pending = some (.loop header) := by
  obtain ⟨expr, typed, header, -, -, hheader, -, rfl⟩ := eq_of_clause h
  exact ⟨⟨.loop _, _, trivial, rfl⟩, header, hheader⟩

/-- The main block is announced once, in the global scope. -/
theorem KeepsMain.start (h : e.KeepsMain) (hstart : e.start s = .ok e') : e'.KeepsMain := by
  obtain ⟨-, hdepth, hunseen, rfl⟩ := eq_of_start hstart
  have hnone : e.mainLines = 0 := h.unseen hunseen
  constructor
  · exact h.scopes
  · intro _
    rfl
  · exact h.once
  · intro hunseen
    cases hunseen
  · intro _
    exact ⟨hdepth, rfl, hnone⟩
  · intro header hheader hother
    exact absurd (Option.some.inj hheader).symm hother

/-- A block is opened inside the main block. -/
theorem KeepsMain.enter {kind : Scope.Kind} {lines : List Line} {scopes : Scopes}
    (h : e.KeepsMain) (hdepth : 0 < e.scopes.depth) (hkind : kind.isInner = true)
    (hcount : lines.countP Line.opensMain ≤ e.mainLines)
    (hkinds : scopes.kinds = (e.scopes.enter kind).kinds) (diagnostics : List Diagnostic) :
    KeepsMain { e with lines, scopes, diagnostics, pending := none } := by
  exact .of_free ((h.scopes.enter hdepth hkind).congr hkinds) (h.seen hdepth) (hcount.trans h.once) rfl

/-- The main block is opened when its brace comes. -/
theorem KeepsMain.openMain (h : e.KeepsMain) (hdepth : e.scopes.depth = 0)
    (hseen : e.seenMain = true) (hnone : e.mainLines = 0) (hpending : e.pending = none)
    (hmain : e.openMain = .ok e') : e'.KeepsMain := by
  obtain ⟨declared, scopes, hdeclare, rfl⟩ := eq_of_openMain hmain
  have hkinds : scopes.kinds = (e.scopes.enter .main).kinds := kinds_of_declare hdeclare
  have hcount : (Line.mk scopes.depth
      "const rt::vector<std::string> args = rt::make_args(argc, argv);" ::
      ⟨e.scopes.depth, "int main(int argc, char** argv) \x7b"⟩ :: e.lines).countP
        Line.opensMain = 1 := by
    rw [mainLines] at hnone
    simp [Line.opensMain, hnone]
  exact .of_free ((h.scopes.enter_main hdepth).congr hkinds) hseen hcount.le hpending

/-- An inner line does not count among those that open the main block. -/
theorem mainLines_cons {l : Line} (hl : l.opensMain = false) (lines : List Line) :
    (l :: lines).countP Line.opensMain = lines.countP Line.opensMain := by
  rw [List.countP_cons_of_neg (by simp [hl])]

/-- Continuing a line with a text that the line of the main block does not have adds no such line. -/
theorem mainLines_extend (e : Emission) {text : String} (h : Target.IsForeign text) :
    (e.extend text).mainLines ≤ e.mainLines := by
  have hinner : ∀ depth front, (Line.mk depth (front ++ text)).opensMain = false := by
    intro depth front
    have hforeign := h.append front ""
    rw [String.append_empty] at hforeign
    exact Line.not_opensMain_of_isForeign hforeign
  unfold extend
  cases hlines : e.lines with
  | nil =>
    have halone := hinner 0 ""
    rw [String.empty_append] at halone
    simp [mainLines, Line.flat, halone]
  | cons latest earlier =>
    simp only [mainLines, hlines]
    rw [mainLines_cons (hinner latest.depth latest.text)]
    exact (List.sublist_cons_self latest earlier).countP_le

/-- The block of a loop is opened inside the main block. -/
theorem KeepsMain.openLoop {header : LoopHeader} (h : e.KeepsMain) (hdepth : 0 < e.scopes.depth)
    (hloop : { e with pending := none }.openLoop deny header = .ok e') : e'.KeepsMain := by
  obtain ⟨bound, args, -, -, hopens⟩ := eq_of_openLoop hloop
  have hline : (Line.mk e.scopes.depth ("RT_FOR(" ++ args ++ ") \x7b")).opensMain = false :=
    Line.not_opensMain_of_isForeign ⟨'R', by simp, by decide⟩
  have hcount := (mainLines_cons hline e.lines).le
  obtain ⟨-, rfl⟩ | ⟨own, -, hdeclare⟩ := hopens
  · exact h.enter hdepth rfl hcount rfl e.diagnostics
  · obtain ⟨declared, scopes, hkinds, rfl⟩ := eq_of_declare hdeclare
    exact h.enter hdepth rfl hcount (kinds_of_declare hkinds) _

/-- A brace without a header may stand inside the main block only, and the brace of `main` opens it
for the first time. -/
theorem KeepsMain.opens (h : e.KeepsMain) (hguard : e.pending = none → 0 < e.scopes.depth)
    (hopens : Opens deny e e') : e'.KeepsMain := by
  cases hopens with
  | plain hpending =>
    exact h.enter (hguard hpending) rfl (mainLines_cons (by rfl) e.lines).le rfl e.diagnostics
  | main hpending hmain =>
    obtain ⟨hdepth, hseen, hnone⟩ := h.announced hpending
    have hfree : KeepsMain { e with pending := none } :=
      ⟨h.scopes, h.seen, h.once, h.unseen, by simp, by simp⟩
    exact hfree.openMain hdepth hseen hnone rfl hmain
  | goesOn hpending =>
    obtain ⟨hdepth, hkind, hforeign⟩ := h.header _ hpending (by simp)
    exact h.enter hdepth hkind (mainLines_extend e (hforeign.append " " "\x7b")) rfl e.diagnostics
  | @block kind text hpending =>
    obtain ⟨hdepth, hkind, hforeign⟩ := h.header _ hpending (by simp)
    have hline : (Line.mk e.scopes.depth (text ++ "\x7b")).opensMain = false := by
      have hbehind := hforeign.append "" "\x7b"
      rw [String.empty_append] at hbehind
      exact Line.not_opensMain_of_isForeign hbehind
    exact h.enter hdepth hkind (mainLines_cons hline e.lines).le rfl e.diagnostics
  | loop hpending hloop => exact h.openLoop (h.header _ hpending (by simp)).1 hloop

/-- The global scope is not closed. -/
theorem KeepsMain.closeBlock {position : Position} (h : e.KeepsMain) (hpending : e.pending = none)
    (hclose : e.closeBlock position = .ok e') : e'.KeepsMain ∧ 0 < e.scopes.depth := by
  obtain ⟨scope, scopes, inner, hleave, hinner, rfl⟩ := eq_of_closeBlock hclose
  obtain ⟨hkept, hnone⟩ : inner.KeepsMain ∧ inner.pending = none := by
    obtain ⟨-, rfl⟩ | ⟨-, rfl⟩ := hinner
    · exact ⟨h.adds (adds_line rfl), hpending⟩
    · exact ⟨h, hpending⟩
  obtain ⟨hprogram, hdepth⟩ := h.scopes.leave hleave
  have hcount : (Line.mk scopes.depth "\x7d" :: inner.lines).countP Line.opensMain =
      inner.mainLines := mainLines_cons rfl inner.lines
  have hseen : inner.seenMain = true := by
    obtain ⟨-, rfl⟩ | ⟨-, rfl⟩ := hinner <;> exact h.seen hdepth
  exact ⟨.of_free hprogram hseen (hcount.trans_le hkept.once) hnone, hdepth⟩

/-- Every statement keeps the shape of one main block. -/
theorem KeepsMain.step (h : e.KeepsMain) (hstep : e.step deny s = .ok e') : e'.KeepsMain := by
  have hopened : KeepsMain { e with closed := none } :=
    ⟨h.scopes, h.seen, h.once, h.unseen, h.announced, h.header⟩
  cases Act.of_step hstep with
  | start _ _ hstart => exact hopened.start hstart
  | declaration _ _ hdeclaration => exact hopened.adds (declaration_adds hdeclaration)
  | operation _ _ _ hoperation => exact hopened.adds (operation_adds hoperation)
  | assignment _ _ _ hassignment => exact hopened.adds (assignment_adds hassignment)
  | header _ _ hdepth hheader => exact hopened.awaits hdepth (header_awaits hheader)
  | alternative _ _ hdepth halternative =>
    exact hopened.awaits hdepth (alternative_awaits halternative)
  | bound _ hclause | step _ hclause =>
    obtain ⟨hawaits, header, hheader⟩ := clause_awaits hclause
    exact hopened.awaits (h.header _ hheader (by simp)).1 hawaits
  | jump _ _ _ hjump => exact hopened.adds (jump_adds hjump)
  | result _ _ _ hresult => exact hopened.adds (result_adds hresult)
  | opening _ hguard hopens => exact hopened.opens hguard hopens
  | closing _ hpending hcloses => exact (hopened.closeBlock hpending hcloses).1

/-- So does every run. -/
theorem KeepsMain.run {statements : List Statement} (h : e.KeepsMain)
    (hrun : run deny e statements = .ok e') : e'.KeepsMain :=
  run_induction hrun h fun _ _ _ _ hkept hstep => hkept.step hstep

/-- A statement is emitted inside the main block, or it declares something, or it announces or opens
the main block. -/
theorem KeepsMain.placed (h : e.KeepsMain) (hstep : e.step deny s = .ok e') :
    e.scopes.inMain = true ∨ s.kind ∈ [.main, .declaration, .initialization] ∨
      s.kind = .opening ∧ e.pending = some .main := by
  have hopened : KeepsMain { e with closed := none } :=
    ⟨h.scopes, h.seen, h.once, h.unseen, h.announced, h.header⟩
  rw [h.scopes.inMain_iff]
  by_cases hdepth : 0 < e.scopes.depth
  · exact .inl hdepth
  · refine .inr ?_
    cases Act.of_step hstep with
    | start hkind => exact .inl (by simp [hkind])
    | declaration hkind => exact .inl (by rcases hkind with hkind | hkind <;> simp [hkind])
    | operation _ _ hinside | assignment _ _ hinside | header _ _ hinside
    | alternative _ _ hinside | jump _ _ hinside | result _ _ hinside => exact absurd hinside hdepth
    | bound _ hclause | step _ hclause =>
      -- A clause needs a loop header in front of it.
      obtain ⟨-, header, hheader⟩ := clause_awaits hclause
      exact absurd (h.header _ hheader (by simp)).1 hdepth
    | opening hkind hguard =>
      refine .inr ⟨hkind, ?_⟩
      cases hpending : e.pending with
      | none => exact absurd (hguard hpending) hdepth
      | some header =>
        by_contra hother
        exact hdepth (h.header header hpending fun heq => hother (congrArg some heq)).1
    | closing _ hpending hcloses =>
      -- A brace that closes a block would close the global scope.
      exact absurd (hopened.closeBlock hpending hcloses).2 hdepth

/-- A list of statements is emitted in the shape of one main block: after every one of them, the open
scopes are the global one, or the main block in it and blocks inside that; the main block is opened at
most once, after it was announced; and outside of it, only declarations are emitted, besides its own
word and brace. -/
theorem run_hasOneMain {statements : List Statement} (hrun : run deny {} statements = .ok e) :
    e.HasOneMain ∧ ∀ before s after, statements = before ++ s :: after →
      ∃ e₁, run deny {} before = .ok e₁ ∧ e₁.HasOneMain ∧
        (e₁.scopes.inMain = true ∨ s.kind ∈ [.main, .declaration, .initialization] ∨
          s.kind = .opening ∧ e₁.pending = some .main) := by
  refine ⟨(keepsMain_empty.run hrun).hasOneMain, ?_⟩
  rintro before s after rfl
  obtain ⟨e₁, e₂, hbefore, hstep, -⟩ := run_append hrun
  have hkept := keepsMain_empty.run hbefore
  exact ⟨e₁, hbefore, hkept.hasOneMain, hkept.placed hstep⟩

/-- The statements of `main{{}}`. -/
private def blockInMain : List Statement :=
  [⟨.main, ⟨.keyword .main, "main", ⟨1, 1⟩⟩, []⟩, ⟨.opening, ⟨.openBrace, "\x7b", ⟨1, 5⟩⟩, []⟩,
    ⟨.opening, ⟨.openBrace, "\x7b", ⟨1, 6⟩⟩, []⟩, ⟨.closing, ⟨.closeBrace, "\x7d", ⟨1, 7⟩⟩, []⟩,
    ⟨.closing, ⟨.closeBrace, "\x7d", ⟨1, 8⟩⟩, []⟩]

/-- The main block is opened by the word and the brace, and the plain block inside it by a brace
alone. -/
theorem blockInMain_hasOneMain :
    ∃ e, run false {} blockInMain = .ok e ∧
      e.HasOneMain ∧ ∀ before s after, blockInMain = before ++ s :: after →
        ∃ e₁, run false {} before = .ok e₁ ∧ e₁.HasOneMain ∧
          (e₁.scopes.inMain = true ∨ s.kind ∈ [.main, .declaration, .initialization] ∨
            s.kind = .opening ∧ e₁.pending = some .main) := by
  have hisOk : (run false {} blockInMain).isOk = true := rfl
  obtain ⟨e, hrun⟩ := exists_eq_ok_of_isOk hisOk
  exact ⟨e, hrun, run_hasOneMain hrun⟩

end Emission

end Sprout
