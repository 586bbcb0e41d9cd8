import Sprout.Proofs.Blocks.Headers

namespace Sprout

open Target Code

/-- The blocks that are open at a sentence: those of the open scopes, and inside them at most the one
that unpacks a call. -/
def Inside (scopes : Scopes) (opened : List (List Char)) : Prop :=
  ∃ unpacking outer, opened = unpacking ++ outer ∧ (unpacking = [] ∨ unpacking = ["\x7b".toList]) ∧
    List.Forall₂ Opens scopes.kinds.dropLast outer

/-- `Grows scopes lines lines'`: lines are added one by one, in front. Those that are no braces stand
inside the scopes; else a brace may go on. -/
inductive Grows (scopes : Scopes) : List Line → List Line → Prop
  | same {lines : List Line} : Grows scopes lines lines
  | line {lines lines' : List Line} {l : Line} (h : Grows scopes lines lines')
    (hinside : opens l.text.toList = false → closes l.text.toList = false →
      Inside scopes (blocksBehind lines')) : Grows scopes lines (l :: lines')
  | goesOn {depth : Nat} {earlier : List Line} {text : String}
    (hcloses : closes ("\x7d" ++ text).toList = true) :
    Grows scopes (⟨depth, "\x7d"⟩ :: earlier) (⟨depth, "\x7d" ++ text⟩ :: earlier)

/-- `Stays lines lines'`: no line of `lines` is changed, unless it closes a block. -/
structure Stays (lines lines' : List Line) : Prop where
  length : lines.length ≤ lines'.length
  line : ∀ l earlier, l :: earlier <:+ lines' → earlier.length < lines.length →
    closes l.text.toList = false → l :: earlier <:+ lines

variable {scopes scopes' inner : Scopes} {base lines lines' lines'' body : List Line} {l : Line}

/-- Nothing has changed where nothing was added. -/
theorem Stays.refl : Stays lines lines :=
  ⟨le_rfl, fun _ _ hsuffix _ _ => hsuffix⟩

/-- What stays through two steps stays through both. -/
theorem Stays.trans (h : Stays lines lines') (h' : Stays lines' lines'') : Stays lines lines'' :=
  ⟨h.length.trans h'.length, fun l earlier hsuffix hlength hcloses =>
    h.line l earlier (h'.line l earlier hsuffix (hlength.trans_le h.length) hcloses) hlength hcloses⟩

/-- Where lines are added, the earlier ones stay. -/
theorem Grows.stays (h : Grows scopes lines lines') : Stays lines lines' := by
  induction h with
  | same => exact .refl
  | @line lines lines' l _ _ ih =>
    refine ⟨ih.length.trans (by simp), fun l' earlier hsuffix hlength hcloses => ?_⟩
    rcases List.suffix_cons_iff.1 hsuffix with heq | hsuffix
    · cases heq
      exact absurd ih.length (by omega)
    · exact ih.line l' earlier hsuffix hlength hcloses
  | goesOn hgoes =>
    refine ⟨by simp, fun l' earlier hsuffix _ hcloses => ?_⟩
    rcases List.suffix_cons_iff.1 hsuffix with heq | hsuffix
    · cases heq
      rw [hgoes] at hcloses
      cases hcloses
    · exact List.suffix_cons_iff.2 (.inr hsuffix)

/-- The lines that are added stand inside the scopes. -/
theorem Grows.inside {earlier : List Line} (h : Grows scopes lines lines')
    (hsuffix : l :: earlier <:+ lines') (hlength : lines.length ≤ earlier.length)
    (hopens : opens l.text.toList = false) (hcloses : closes l.text.toList = false) :
    Inside scopes (blocksBehind earlier) := by
  induction h with
  | same =>
    have hle := hsuffix.length_le
    simp only [List.length_cons] at hle
    omega
  | line _ hinside ih =>
    rcases List.suffix_cons_iff.1 hsuffix with heq | hsuffix
    · cases heq
      exact hinside hopens hcloses
    · exact ih hsuffix hlength
  | goesOn =>
    have hle := hsuffix.length_le
    simp only [List.length_cons] at hle hlength
    omega

/-- Lines as they are emitted at a depth, the latest in front. -/
def Line.emitted (depth : Nat) (body : List Line) : List Line :=
  (body.map fun l => { l with depth := depth + l.depth }).reverse

@[simp] theorem Line.emitted_nil (depth : Nat) : emitted depth [] = [] := rfl

@[simp] theorem Line.emitted_cons (depth : Nat) (l : Line) (body : List Line) :
    emitted depth (l :: body) = emitted depth body ++ [⟨depth + l.depth, l.text⟩] := by
  simp [emitted]

/-- Lines are emitted in order, the last one first. -/
@[simp] theorem Line.emitted_append (depth : Nat) (body more : List Line) :
    emitted depth (body ++ more) = emitted depth more ++ emitted depth body := by
  simp [emitted]

/-- What is emitted stands inside the open scopes. -/
theorem Code.Mirrors.inside (h : Mirrors scopes lines) : Inside scopes (blocksBehind lines) :=
  ⟨[], _, rfl, .inl rfl, h.blocks⟩

/-- Nothing but a plain block has a bare brace as its header. -/
theorem Code.Opens.eq_of_plain {header : List Char} (h : Opens .plain header) :
    header = "\x7b".toList := by
  obtain ⟨text, rfl, hopens | hopens⟩ := h <;> cases hopens
  rfl

/-- The block that unpacks a call stands inside the open scopes. -/
theorem Code.Mirrors.inside_unpacking (h : Mirrors (scopes.enter .plain) lines) :
    Inside scopes (blocksBehind lines) := by
  have hblocks := h.blocks
  rw [kinds_dropLast_enter] at hblocks
  obtain ⟨header, outer, hopens, houter, heq⟩ := List.forall₂_cons_left_iff.1 hblocks
  exact ⟨[header], outer, heq, .inr (by rw [hopens.eq_of_plain]), houter⟩

/-- Sentences that are emitted at their depth keep the blocks as they are. -/
theorem mirrors_sentences {depth extra : Nat} (hdepth : inner.depth = depth + extra)
    (hinside : ∀ lines, Mirrors inner lines → Inside scopes (blocksBehind lines))
    (h : Mirrors inner lines) (hgrows : Grows scopes base lines) (hbody : Sentences extra body) :
    Mirrors inner (Line.emitted depth body ++ lines) ∧
      Grows scopes base (Line.emitted depth body ++ lines) := by
  induction body generalizing lines with
  | nil => exact ⟨h, hgrows⟩
  | cons l body ih =>
    obtain ⟨⟨hl, htext⟩, hbody⟩ := List.forall_mem_cons.1 hbody
    have hline := h.sentence htext
    rw [hdepth, ← hl] at hline
    rw [Line.emitted_cons, List.append_assoc]
    exact ih hline (.line hgrows fun _ _ => hinside lines h) hbody

/-- The lines of a statement keep the blocks as they are, and stand inside them. -/
theorem mirrors_body (h : Mirrors scopes lines) (hbody : IsBody body) :
    Mirrors scopes (Line.emitted scopes.depth body ++ lines) ∧
      Grows scopes lines (Line.emitted scopes.depth body ++ lines) := by
  have hinside : ∀ lines, Mirrors scopes lines → Inside scopes (blocksBehind lines) :=
    fun _ => Mirrors.inside
  have hdepth : scopes.depth = scopes.depth + 0 := rfl
  cases hbody with
  | flat hflat => exact mirrors_sentences hdepth hinside h .same hflat
  | @unpacked front sentences hfront hsentences =>
    obtain ⟨hbefore, hgrows⟩ := mirrors_sentences hdepth hinside h .same hfront
    -- The block is that of a plain scope, which is left before anything else is emitted.
    have hentered := hbefore.enter .plain rfl
    have hopened := hgrows.line (l := ⟨scopes.depth, "\x7b"⟩) (by simp [opens])
    have hdeeper : (scopes.enter .plain).depth = scopes.depth + 1 := rfl
    obtain ⟨hwithin, hgrown⟩ := mirrors_sentences hdeeper (fun _ => Mirrors.inside_unpacking)
      hentered hopened hsentences
    have hleave : (scopes.enter .plain).leave = .ok ((scopes.enter .plain).current, scopes) := rfl
    obtain ⟨hleft, -⟩ := hwithin.leave hleave
    have hclosed := hgrown.line (l := ⟨scopes.depth, "\x7d"⟩)
      fun _ hcloses => absurd (closes_brace.symm.trans hcloses) (by decide)
    simp only [Line.emitted_append, Line.emitted_cons, Line.emitted_nil, List.nil_append,
      List.append_assoc, List.singleton_append, Nat.add_zero]
    exact ⟨hleft, hclosed⟩

variable {name : String} {symbol : Symbol} {declared : Declared}

/-- Declaring a name opens and closes no scope. -/
theorem kinds_of_declare (h : scopes.declare name symbol = .ok (declared, scopes')) :
    scopes'.kinds = scopes.kinds := by
  obtain ⟨-, rfl⟩ := Scopes.eq_of_declare h
  rfl

/-- The blocks follow the kinds of the scopes. What the scopes declare does not matter. -/
theorem Code.Mirrors.congr (h : Mirrors scopes lines) (hkinds : scopes'.kinds = scopes.kinds) :
    Mirrors scopes' lines :=
  ⟨h.nested, hkinds ▸ h.outermost, hkinds ▸ h.blocks⟩

/-- Scopes of the same kinds are equally deep. -/
theorem depth_eq_of_kinds (h : scopes'.kinds = scopes.kinds) : scopes'.depth = scopes.depth := by
  have hlength := congrArg List.length h
  simpa [Scopes.kinds, Scopes.all, Scopes.depth] using hlength

namespace Emission

variable {deny : Bool} {e e' : Emission} {s : Statement}

/-- The latest lines are what the emission says: the blocks of the open scopes, the brace behind an
`if` if its block was just closed, and lines that what waits for its brace fits behind. -/
structure Structured (e : Emission) : Prop where
  mirrors : Mirrors e.scopes e.lines
  closed : e.closed = some .branch → EndsBranch e.lines
  pending : ∀ header, e.pending = some header → header.Fits e.lines

/-- What a statement adds is lines, maybe with names. -/
def EmitsBody (e e' : Emission) : Prop :=
  ∃ body scopes diagnostics, IsBody body ∧ scopes.kinds = e.scopes.kinds ∧
    e' = { e with scopes, diagnostics, lines := Line.emitted e.scopes.depth body ++ e.lines }

/-- What a statement adds is a header that waits for its brace. -/
def Waits (e e' : Emission) : Prop :=
  ∃ header diagnostics seenMain, header.Fits e.lines ∧
    e' = { e with pending := some header, diagnostics, seenMain }

/-- Declaring names changes the scopes and the diagnostics, and neither the lines nor the kinds of
the scopes. -/
theorem eq_of_bind {mutable : Bool} {bindings : List Binding}
    (h : e.bind deny mutable bindings = .ok e') :
    ∃ scopes diagnostics, scopes.kinds = e.scopes.kinds ∧ e' = { e with scopes, diagnostics } := by
  induction bindings generalizing e with
  | nil =>
    cases h
    exact ⟨_, _, rfl, rfl⟩
  | cons b bindings ih =>
    simp only [Emission.bind, bind_eq_ok_iff, mapError_eq_ok_iff] at h
    obtain ⟨e₁, hfirst, hothers⟩ := h
    obtain ⟨declared, scopes, hdeclare, rfl⟩ := eq_of_declare hfirst
    obtain ⟨scopes', diagnostics', hkinds', rfl⟩ := ih hothers
    exact ⟨_, _, hkinds'.trans (kinds_of_declare hdeclare), rfl⟩

/-- A declaration emits sentences, inside braces where it unpacks a call. -/
theorem declaration_emitsBody (hs : s.Written) (h : e.declaration deny s = .ok e') :
    EmitsBody e e' := by
  obtain ⟨d, plan, bound, hread, -, hplan, hbind, rfl⟩ := eq_of_declaration h
  obtain ⟨scopes, diagnostics, hkinds, rfl⟩ := eq_of_bind hbind
  have hbody := isBody_of_plan (Declaration.isName_of_read hread hs.named)
    (Declaration.wellSpelled_of_read hread hs.named).1 hplan
  refine ⟨plan.lines, scopes, diagnostics, hbody, hkinds, ?_⟩
  rw [← depth_eq_of_kinds hkinds]
  rfl

/-- Expressions that are evaluated for their effect emit a sentence each. -/
theorem operation_emitsBody (hs : s.Written) (h : e.operation deny s = .ok e') :
    EmitsBody e e' := by
  obtain ⟨es, lines, hparse, hlines, rfl⟩ := eq_of_operation h
  exact ⟨lines, _, _, .flat (sentences_of_operationLines
    (Expr.wellSpelled_of_parseList hparse hs.named) hlines), rfl, rfl⟩

/-- An assignment emits sentences, inside braces where it unpacks a call. -/
theorem assignment_emitsBody (hs : s.Written) (h : e.assignment deny s = .ok e') :
    EmitsBody e e' := by
  obtain ⟨a, lines, hread, hlines, rfl⟩ := eq_of_assignment h
  obtain ⟨before, after, hsplit, htargets, hvalues⟩ := Assignment.read_eq_ok hread
  obtain ⟨htokens, -⟩ := Token.eq_append_of_splitTop hsplit
  have hnamed := htokens ▸ hs.named
  refine ⟨lines, _, _, isBody_of_lines (fun op hop => ?_)
    (Expr.wellSpelled_of_parseList htargets hnamed.left)
    (Expr.wellSpelled_of_parseList hvalues hnamed.right) hlines, rfl, rfl⟩
  rw [hs.compound a.operator (by simp [htokens]) op hop]
  cases op <;> rfl

/-- A value that is returned makes a sentence. -/
theorem sentence_of_resultText {scopes : Scopes} {run : List Token} {text : String}
    (hnamed : Token.Named run) (h : resultText scopes run = .ok text) :
    IsSentence ("return " ++ text ++ ";") := by
  have hline : isOneLine text = true := by
    obtain ⟨-, rfl⟩ | ⟨-, expr, typed, hparse, htyped, -, rfl⟩ := resultText_eq_ok h
    · rfl
    · exact isOneLine_of_value (Expr.wellSpelled_of_parse hparse hnamed) htyped
  refine .mk_append (isSolid_append rfl hline) ?_
  rw [isCompound_append]
  rfl

/-- A `return` emits a sentence. -/
theorem result_emitsBody (hs : s.Written) (h : e.result s = .ok e') : EmitsBody e e' := by
  obtain ⟨-, text, htext, rfl⟩ := eq_of_result h
  have hnamed : Token.Named s.rest := fun t ht => hs.named t (List.mem_cons_of_mem _ ht)
  exact ⟨[.flat _], _, _, .flat (List.forall_mem_singleton.2
    ⟨rfl, sentence_of_resultText hnamed htext⟩), rfl, rfl⟩

/-- The word `main` emits nothing and waits for its brace. -/
theorem start_waits (h : e.start s = .ok e') : Waits e e' := by
  obtain ⟨-, -, -, rfl⟩ := eq_of_start h
  exact ⟨.main, _, _, trivial, rfl⟩

/-- A block header emits nothing and waits for its brace, with a text that makes one line. -/
theorem header_waits (hs : s.Written) (h : e.header deny s = .ok e') : Waits e e' := by
  obtain ⟨waiting, hwaiting, rfl⟩ := eq_of_header h
  exact ⟨waiting, _, _, fits_headerOf hs.named hwaiting, rfl⟩

/-- An `else` waits for its brace on the line that closes the block of its `if`. -/
theorem alternative_waits {closed : Option Scope.Kind} (hs : s.Written)
    (hends : closed = some .branch → EndsBranch e.lines) (h : e.alternative deny closed s = .ok e') :
    Waits e e' := by
  obtain ⟨hclosed, waiting, hwaiting, rfl⟩ := eq_of_alternative h
  exact ⟨waiting, _, _, fits_alternativeOf hs.named (hends hclosed) hwaiting, rfl⟩

/-- A clause of one line keeps the parts of a header on one line each. -/
theorem isOneLine_withClause {header : LoopHeader} {part : Clause} {text : String}
    (h : header.IsOneLine) (htext : isOneLine text = true) :
    (withClause header part text).IsOneLine := by
  have hown : ∀ text', some text = some text' → isOneLine text' = true := by
    intro text' heq
    cases heq
    exact htext
  cases part with
  | bound => exact ⟨h.type, h.name, h.start, hown, h.step⟩
  | step => exact ⟨h.type, h.name, h.start, h.bound, hown⟩

/-- A clause emits nothing and is kept with the header that waits. -/
theorem clause_waits {part : Clause} (hs : s.Written)
    (hpending : ∀ header, e.pending = some header → header.Fits e.lines)
    (h : e.clause deny part s = .ok e') : Waits e e' := by
  obtain ⟨expr, typed, header, hparse, hvalue, hheader, -, rfl⟩ := eq_of_clause h
  have htext := isOneLine_of_value (Expr.wellSpelled_of_parse hparse hs.named)
    (value_of_clauseValue hvalue).1
  exact ⟨.loop _, _, _, isOneLine_withClause (hpending _ hheader) htext, rfl⟩

/-- A statement that emits a body keeps the program structured, and its lines stand in the blocks of
the open scopes. -/
theorem Structured.emits (h : e.Structured) (hclosed : e.closed = none) (hpending : e.pending = none)
    (hbody : EmitsBody e e') : e'.Structured ∧ Grows e.scopes e.lines e'.lines := by
  obtain ⟨body, scopes, diagnostics, hlines, hkinds, rfl⟩ := hbody
  obtain ⟨hmirrors, hgrows⟩ := mirrors_body h.mirrors hlines
  exact ⟨⟨hmirrors.congr hkinds, by simp [hclosed], by simp [hpending]⟩, hgrows⟩

/-- A statement that emits nothing keeps the program structured. -/
theorem Structured.waits (h : e.Structured) (hclosed : e.closed = none) (hwaits : Waits e e') :
    e'.Structured ∧ Grows e.scopes e.lines e'.lines := by
  obtain ⟨header, diagnostics, seenMain, hfits, rfl⟩ := hwaits
  refine ⟨⟨h.mirrors, by simp [hclosed], fun waiting hwaiting => ?_⟩, .same⟩
  cases hwaiting
  exact hfits

/-- A jump stands in a loop, for one of the open scopes is a loop and the blocks follow the
scopes. -/
theorem Structured.jump (h : e.Structured) (hs : s.Written) (hkind : s.kind = .jump)
    (hclosed : e.closed = none) (hpending : e.pending = none) (hjump : e.jump s = .ok e') :
    e'.Structured ∧ Grows e.scopes e.lines e'.lines := by
  obtain ⟨-, hloop, rfl⟩ := eq_of_jump hjump
  have htext : isSolid (s.lead.lexeme ++ ";") = true ∧ isEnded (s.lead.lexeme ++ ";") = true := by
    rcases hs.jump hkind with hword | hword <;> rw [hword] <;> exact ⟨rfl, rfl⟩
  have hmirrors := h.mirrors.line htext.1 htext.2 fun _ => h.mirrors.loop hloop
  exact ⟨⟨hmirrors, by simp [line, hclosed], by simp [line, hpending]⟩,
    .line .same fun _ _ => h.mirrors.inside⟩

/-- A brace that opens a block of its own, or that of a header. -/
theorem enter_grows {kind : Scope.Kind} {text : String} (h : Mirrors e.scopes e.lines)
    (hopens : OpensFresh kind text) (hline : isOneLine text = true) :
    Mirrors (e.enter kind text).scopes (e.enter kind text).lines ∧
      ∀ scopes, Grows scopes e.lines (e.enter kind text).lines :=
  ⟨h.enter hopens hline, fun _ => .line .same fun hnot =>
    absurd (hopens.opens.symm.trans hnot) (by decide)⟩

/-- The brace of the main block opens it with two lines, the second of which already stands
inside. -/
theorem openMain_grows (h : Mirrors e.scopes e.lines) (hmain : e.openMain = .ok e') :
    Mirrors e'.scopes e'.lines ∧ Grows e'.scopes e.lines e'.lines ∧ e'.closed = e.closed ∧
      e'.pending = e.pending := by
  obtain ⟨declared, scopes, hdeclare, rfl⟩ := eq_of_openMain hmain
  have hkinds := kinds_of_declare hdeclare
  obtain ⟨hentered, hgrows⟩ := enter_grows h .main rfl
  have hsame : Mirrors scopes (e.enter .main "int main(int argc, char** argv) \x7b").lines :=
    hentered.congr hkinds
  have hargs : IsSentence
      "const rt::vector<std::string> args = rt::make_args(argc, argv);" := by
    constructor <;> rfl
  exact ⟨hsame.sentence hargs, .line (hgrows scopes) fun _ _ => hsame.inside, rfl, rfl⟩

/-- The brace of a loop opens its block with one line, and declares the variable of the loop in the
scope of the block, which opens no further one. -/
theorem openLoop_grows {header : LoopHeader} (h : Mirrors e.scopes e.lines)
    (hheader : header.IsOneLine) (hloop : e.openLoop deny header = .ok e') :
    Mirrors e'.scopes e'.lines ∧ Grows e'.scopes e.lines e'.lines ∧ e'.closed = e.closed ∧
      e'.pending = e.pending := by
  obtain ⟨bound, args, hbound, hargs, hopens⟩ := eq_of_openLoop hloop
  have hline : isOneLine ("RT_FOR(" ++ args ++ ") \x7b") = true := by
    have hstep : isOneLine (header.step.getD "1") = true := by
      cases hstep : header.step with
      | none => rfl
      | some text => exact hheader.step text hstep
    have hjoined : isOneLine args = true := by
      rw [hargs]
      refine isOneLine_intercalate ?_
      simp [hheader.type, hheader.name, hheader.start, hheader.bound bound hbound, hstep]
    simp only [isOneLine_append, hjoined]
    rfl
  obtain ⟨hmirrors, hgrows⟩ := enter_grows h (.forLoop args) hline
  obtain ⟨-, rfl⟩ | ⟨own, -, hdeclare⟩ := hopens
  · exact ⟨hmirrors, hgrows _, rfl, rfl⟩
  · obtain ⟨declared, scopes, hkinds, rfl⟩ := eq_of_declare hdeclare
    exact ⟨hmirrors.congr (kinds_of_declare hkinds), hgrows scopes, rfl, rfl⟩

/-- An opening brace opens a block of the kind of the scope that it opens. -/
theorem Structured.opens (h : e.Structured) (hclosed : e.closed = none)
    (hopens : Opens deny e e') : e'.Structured ∧ Grows e'.scopes e.lines e'.lines := by
  have hdone : ∀ {e' : Emission}, Mirrors e'.scopes e'.lines ∧ Grows e'.scopes e.lines e'.lines ∧
      e'.closed = e.closed ∧ e'.pending = none → e'.Structured ∧ Grows e'.scopes e.lines e'.lines := by
    rintro e' ⟨hmirrors, hgrows, hsame, hpending⟩
    exact ⟨⟨hmirrors, by simp [hsame, hclosed], by simp [hpending]⟩, hgrows⟩
  cases hopens with
  | plain =>
    obtain ⟨hmirrors, hgrows⟩ := enter_grows h.mirrors .plain rfl
    exact hdone ⟨hmirrors, hgrows _, rfl, rfl⟩
  | main _ hmain => exact hdone (openMain_grows (e := { e with pending := none }) h.mirrors hmain)
  | @goesOn kind text hpending =>
    obtain ⟨⟨depth, earlier, branch, outer, hlines, hbranch, hopened⟩, hopens, hline⟩ :=
      h.pending _ hpending
    have hextended : (e.extend (" " ++ text ++ "\x7b")).lines =
        ⟨depth, "\x7d" ++ (" " ++ (text ++ "\x7b"))⟩ :: earlier := by
      simp only [extend, hlines, String.append_assoc]
    rw [hextended]
    have hmirrors := (hlines ▸ h.mirrors).extend hbranch hopened hopens hline
    have hcloses : closes ("\x7d" ++ (" " ++ (text ++ "\x7b"))).toList = true := by
      rw [← String.append_assoc]
      exact (hopens.blocksAfter []).2.1
    exact hdone ⟨hmirrors, hlines ▸ .goesOn hcloses, rfl, rfl⟩
  | block hpending =>
    obtain ⟨hopens, hline⟩ := h.pending _ hpending
    obtain ⟨hmirrors, hgrows⟩ := enter_grows h.mirrors hopens hline
    exact hdone ⟨hmirrors, hgrows _, rfl, rfl⟩
  | loop hpending hloop =>
    exact hdone
      (openLoop_grows (e := { e with pending := none }) h.mirrors (h.pending _ hpending) hloop)

/-- A closing brace closes the block of the scope that it closes. In the main block, a last line
stands in front of it. -/
theorem Structured.closeBlock {position : Position} (h : e.Structured) (hpending : e.pending = none)
    (hclose : e.closeBlock position = .ok e') :
    e'.Structured ∧ Grows e.scopes e.lines e'.lines := by
  obtain ⟨scope, scopes, inner, hleave, hinner, rfl⟩ := eq_of_closeBlock hclose
  obtain ⟨hmirrors, hgrows, hnone⟩ : Mirrors e.scopes inner.lines ∧
      Grows e.scopes e.lines inner.lines ∧ inner.pending = none := by
    obtain ⟨-, rfl⟩ | ⟨-, rfl⟩ := hinner
    · have hreturn : IsSentence "return 0;" := by constructor <;> rfl
      exact ⟨h.mirrors.sentence hreturn, .line .same fun _ _ => h.mirrors.inside, hpending⟩
    · exact ⟨h.mirrors, .same, hpending⟩
  obtain ⟨hleft, header, outer, hblocks, hopens⟩ := hmirrors.leave hleave
  refine ⟨⟨hleft, fun hbranch => ?_, by simp [line, hnone]⟩,
    .line hgrows fun _ hcloses => absurd (closes_brace.symm.trans hcloses) (by decide)⟩
  exact ⟨_, _, header, outer, rfl, hblocks, Option.some.inj hbranch ▸ hopens⟩

/-- A statement keeps the emission structured, and its lines stand inside the scopes around it. -/
theorem Structured.step (h : e.Structured) (hs : s.Written) (hstep : e.step deny s = .ok e') :
    e'.Structured ∧ Grows (if s.kind = .opening then e'.scopes else e.scopes) e.lines e'.lines := by
  have hopened : Structured { e with closed := none } := ⟨h.mirrors, by simp, h.pending⟩
  cases Act.of_step hstep with
  | start hkind _ hstart => exact hkind ▸ hopened.waits rfl (start_waits hstart)
  | declaration hkind hpending hdeclaration =>
    rcases hkind with hkind | hkind <;>
      exact hkind ▸ hopened.emits rfl hpending (declaration_emitsBody hs hdeclaration)
  | operation hkind hpending _ hoperation =>
    exact hkind ▸ hopened.emits rfl hpending (operation_emitsBody hs hoperation)
  | assignment hkind hpending _ hassignment =>
    exact hkind ▸ hopened.emits rfl hpending (assignment_emitsBody hs hassignment)
  | header hkind _ _ hheader => exact hkind ▸ hopened.waits rfl (header_waits hs hheader)
  | alternative hkind _ _ halternative =>
    exact hkind ▸ hopened.waits rfl
      (alternative_waits (e := { e with closed := none }) hs h.closed halternative)
  | bound hkind hclause => exact hkind ▸ hopened.waits rfl (clause_waits hs hopened.pending hclause)
  | step hkind hclause => exact hkind ▸ hopened.waits rfl (clause_waits hs hopened.pending hclause)
  | jump hkind hpending _ hjump =>
    simpa [hkind] using hopened.jump hs hkind rfl hpending hjump
  | result hkind hpending _ hresult =>
    exact hkind ▸ hopened.emits rfl hpending (result_emitsBody hs hresult)
  | opening hkind _ hopens => simpa [hkind] using hopened.opens rfl hopens
  | closing hkind hpending hcloses => exact hkind ▸ hopened.closeBlock hpending hcloses

/-- A run keeps the emission structured: the open blocks are those of the open scopes, and the lines
stand inside them. It changes no line unless it closes a block. -/
theorem Structured.run {statements : List Statement} (h : e.Structured)
    (hs : ∀ s ∈ statements, s.Written) (hrun : run deny e statements = .ok e') :
    e'.Structured ∧ Stays e.lines e'.lines := by
  refine run_induction (P := fun e₁ => e₁.Structured ∧ Stays e.lines e₁.lines) hrun ⟨h, .refl⟩ ?_
  rintro s hmem e₁ e₂ ⟨hkept, hstays⟩ hstep
  obtain ⟨hnext, hgrows⟩ := hkept.step (hs s hmem) hstep
  exact ⟨hnext, hstays.trans hgrows.stays⟩

/-- Before the first statement nothing has been emitted. -/
theorem structured_empty : Structured {} :=
  ⟨mirrors_nil, by simp, by simp⟩

end Emission

end Sprout
