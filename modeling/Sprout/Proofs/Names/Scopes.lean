import Sprout.Proofs.Arguments.Loops
import Sprout.Proofs.Names.Lines
import Sprout.Proofs.Shadowing

namespace Sprout

open Target Code

/-- The names that each open scope gives to the generated program. -/
def Scopes.escaped (s : Scopes) : List (List (List Char)) :=
  s.names.map Target.escaped

/-- What a `for` header that waits for its brace says of the variable of the loop: it has a type just
if the loop declares it. -/
structure LoopHeader.Declaring (header : LoopHeader) : Prop where
  closed : header.IsClosed
  reused : header.declares = none → header.type = ""
  own : ∀ own, header.declares = some own →
    header.type ≠ "" ∧ Token.IsName own.name ∧ header.name = Target.name own.name

/-- Of the headers that wait for their brace, only that of a loop declares a name. -/
def Header.Declaring : Header → Prop
  | .main => True
  | .block _ text _ => loopVariable? (text ++ "\x7b").toList = none
  | .loop header => header.Declaring

namespace Scopes

variable {scopes scopes' : Scopes} {name : String} {symbol : Symbol}

/-- No scope has a name twice. -/
def AllNodup (s : Scopes) : Prop :=
  ∀ own ∈ s.names, own.Nodup

/-- Before the first statement nothing is declared. -/
theorem allNodup_empty : AllNodup {} := by
  simp [AllNodup, names, all]

/-- A block that is opened declares nothing yet. -/
theorem AllNodup.enter (h : scopes.AllNodup) (kind : Scope.Kind) : (scopes.enter kind).AllNodup := by
  rw [AllNodup, names_enter]
  exact List.forall_mem_cons.2 ⟨List.nodup_nil, h⟩

/-- Closing a block leaves the names of the others. -/
theorem AllNodup.leave {closed : Scope} (h : scopes.AllNodup)
    (hleave : scopes.leave = .ok (closed, scopes')) : scopes'.AllNodup := by
  rw [AllNodup, names_leave hleave]
  exact fun own hown => h own (List.mem_of_mem_tail hown)

/-- A name that is declared is new to its scope. -/
theorem AllNodup.declare {declared : Declared} (h : scopes.AllNodup)
    (hdeclare : scopes.declare name symbol = .ok (declared, scopes')) : scopes'.AllNodup := by
  rw [AllNodup, names_declare hdeclare]
  have hnew : name ∉ scopes.current.symbols.map Prod.fst := by
    rw [← Scope.contains_iff]
    intro hcontains
    rw [Scopes.declare, if_pos hcontains] at hdeclare
    cases hdeclare
  obtain ⟨hown, houter⟩ := List.forall_mem_cons.1 h
  exact List.forall_mem_cons.2 ⟨List.nodup_cons.2 ⟨hnew, hown⟩, houter⟩

/-- Names that are different in the source are different in the generated text, for spelling them
loses nothing. -/
theorem distinct_of_allNodup (h : scopes.AllNodup) : ∀ block ∈ scopes.escaped, Distinct block := by
  intro block hblock
  obtain ⟨own, hown, rfl⟩ := List.mem_map.1 hblock
  exact distinct_escaped (h own hown)

/-- No name of the source is spelled like the temporary. -/
theorem temporary_not_mem (scopes : Scopes) :
    ∀ block ∈ scopes.escaped.head?, temporary.toList ∉ block := by
  rintro _ ⟨⟩
  exact temporary_not_mem_escaped _

end Scopes

namespace Emission

variable {deny : Bool} {e e' : Emission} {s : Statement} {lines : List Line} {text : String}

/-- The names of an emission: its lines keep names apart, and declare what its scopes hold. -/
structure NamesApart (e : Emission) : Prop where
  apart : Apart e.lines
  names : namesBehind e.lines = e.scopes.escaped
  nodup : e.scopes.AllNodup
  pending : ∀ header, e.pending = some header → header.Declaring

/-- Before the first statement no line declares anything. -/
theorem namesApart_empty : NamesApart {} :=
  ⟨trivial, rfl, Scopes.allNodup_empty, by simp⟩

/-- What a statement adds binds names, which are those that its scopes get. -/
def BindsNames (e e' : Emission) : Prop :=
  ∃ body names scopes diagnostics, Binds body names ∧
    scopes.names = (names.reverse ++ e.scopes.current.symbols.map Prod.fst) :: e.scopes.names.tail ∧
    scopes.AllNodup ∧
    e' = { e with scopes, diagnostics, lines := Line.emitted e.scopes.depth body ++ e.lines }

/-- A statement that declares the names it binds keeps them apart. -/
theorem NamesApart.binds (h : e.NamesApart) (hpending : e.pending = none) (hbinds : BindsNames e e') :
    e'.NamesApart := by
  obtain ⟨body, names, scopes, diagnostics, hbody, hnames, hnodup, rfl⟩ := hbinds
  have hown : (names.reverse ++ e.scopes.current.symbols.map Prod.fst).Nodup :=
    hnodup _ (by simp [hnames])
  have houter := (List.forall_mem_cons.1 (Scopes.distinct_of_allNodup h.nodup)).2
  obtain ⟨hapart, hbehind⟩ := apart_body e.scopes.depth h.apart h.names hbody hown houter
  refine ⟨hapart, ?_, hnodup, by simp [hpending]⟩
  rw [hbehind, Scopes.escaped, hnames]
  rfl

/-- A declaration gives its names to the innermost scope, the latest first, and keeps the names of
each scope different; by induction on its bindings. -/
theorem names_of_bind {mutable : Bool} {bindings : List Binding}
    (h : e.bind deny mutable bindings = .ok e') (hnodup : e.scopes.AllNodup) :
    e'.scopes.names = ((bindings.map fun b => b.name.lexeme).reverse ++
        e.scopes.current.symbols.map Prod.fst) :: e.scopes.names.tail ∧ e'.scopes.AllNodup := by
  induction bindings generalizing e with
  | nil =>
    cases h
    exact ⟨rfl, hnodup⟩
  | cons b bindings ih =>
    simp only [Emission.bind, bind_eq_ok_iff, mapError_eq_ok_iff] at h
    obtain ⟨e₁, hfirst, hothers⟩ := h
    obtain ⟨declared, scopes, hdeclare, rfl⟩ := eq_of_declare hfirst
    have hnames := Scopes.names_declare hdeclare
    obtain ⟨hrest, hdone⟩ := ih hothers (hnodup.declare hdeclare)
    have hown : scopes.current.symbols.map Prod.fst =
        b.name.lexeme :: e.scopes.current.symbols.map Prod.fst := (List.cons.inj hnames).1
    have houter : scopes.names.tail = e.scopes.names.tail := by rw [hnames, List.tail_cons]
    refine ⟨?_, hdone⟩
    rw [hrest, hown, houter]
    simp

/-- A declaration declares the names it binds, in the block it stands in. -/
theorem declaration_bindsNames (hs : s.Written) (hnodup : e.scopes.AllNodup)
    (h : e.declaration deny s = .ok e') : BindsNames e e' := by
  obtain ⟨d, plan, bound, hread, -, hplan, hbind, rfl⟩ := eq_of_declaration h
  obtain ⟨hnames, hdone⟩ := names_of_bind hbind hnodup
  obtain ⟨scopes, diagnostics, hkinds, rfl⟩ := eq_of_bind hbind
  have hbody := binds_plan (Declaration.isName_of_read hread hs.named)
    (Declaration.wellSpelled_of_read hread hs.named).1 hplan
  refine ⟨plan.lines, _, scopes, diagnostics, hbody, hnames, hdone, ?_⟩
  rw [← depth_eq_of_kinds hkinds]
  rfl

/-- Lines that bind nothing leave the scopes as they are. -/
theorem bindsNames_nil {body : List Line} {diagnostics : List Diagnostic} (hbody : Binds body [])
    (hnodup : e.scopes.AllNodup) :
    BindsNames e
      { e with diagnostics, lines := Line.emitted e.scopes.depth body ++ e.lines } :=
  ⟨body, [], e.scopes, diagnostics, hbody, rfl, hnodup, rfl⟩

/-- Expressions evaluated for their effect bind and declare nothing. -/
theorem operation_bindsNames (hs : s.Written) (hnodup : e.scopes.AllNodup)
    (h : e.operation deny s = .ok e') : BindsNames e e' := by
  obtain ⟨es, lines, hparse, hlines, rfl⟩ := eq_of_operation h
  exact bindsNames_nil (binds_operationLines (Expr.wellSpelled_of_parseList hparse hs.named) hlines)
    hnodup

/-- An assignment binds and declares nothing. -/
theorem assignment_bindsNames (hs : s.Written) (hnodup : e.scopes.AllNodup)
    (h : e.assignment deny s = .ok e') : BindsNames e e' := by
  obtain ⟨a, lines, hread, hlines, rfl⟩ := eq_of_assignment h
  obtain ⟨before, after, hsplit, htargets, hvalues⟩ := Assignment.read_eq_ok hread
  obtain ⟨htokens, -⟩ := Token.eq_append_of_splitTop hsplit
  have hnamed := htokens ▸ hs.named
  exact bindsNames_nil (binds_lines (hs.compound a.operator (by simp [htokens]))
    (Expr.wellSpelled_of_parseList htargets hnamed.left)
    (Expr.wellSpelled_of_parseList hvalues hnamed.right) hlines) hnodup

/-- A line that declares nothing leaves the names as they are. -/
theorem NamesApart.line (h : e.NamesApart) (hsolid : isSolid text = true)
    (hended : isEnded text = true) (hnone : declared? text.toList = none) :
    (e.line text).NamesApart := by
  obtain ⟨hcontent, -⟩ := content_of_isFlush (isSolid_iff.1 hsolid).1
  have hafter : namesAfter (namesBehind e.lines) text.toList = e.scopes.escaped := by
    rw [h.names, Scopes.escaped, Scopes.names, Scopes.all, List.map_cons, List.map_cons,
      namesAfter_sentence hsolid hended, hnone]
    rfl
  refine ⟨⟨keepsApart_brace ?_ (.inr (by rw [hcontent, hnone])) (.inr ?_), h.apart⟩, hafter,
    h.nodup, h.pending⟩
  · rw [hafter]
    exact Scopes.distinct_of_allNodup h.nodup
  · rw [h.names]
    exact e.scopes.temporary_not_mem

/-- A `return` declares nothing. -/
theorem NamesApart.result (h : e.NamesApart) (hs : s.Written) (hresult : e.result s = .ok e') :
    e'.NamesApart := by
  obtain ⟨-, text, htext, rfl⟩ := eq_of_result hresult
  have hnamed : Token.Named s.rest := fun t ht => hs.named t (List.mem_cons_of_mem _ ht)
  have hsentence := sentence_of_resultText hnamed htext
  refine h.line hsentence.solid hsentence.ended ?_
  rw [String.append_assoc, String.toList_append]
  exact declared?_return _

/-- A `break` or a `continue` declares nothing. -/
theorem NamesApart.jump (h : e.NamesApart) (hs : s.Written) (hkind : s.kind = .jump)
    (hjump : e.jump s = .ok e') : e'.NamesApart := by
  obtain ⟨-, -, rfl⟩ := eq_of_jump hjump
  obtain hword | hword := hs.jump hkind <;> rw [hword] <;> exact h.line rfl rfl rfl

section Headers

variable {scopes : Scopes} {loop : LoopHeader} {waiting : Header}

/-- The header of a loop that is read declares its variable or uses one without a type. -/
theorem declaring_of_loopHeader {keyword : Token} {run : List Token} (hnamed : Token.Named run)
    (h : (loopHeader scopes keyword run).outcome = .ok loop) : loop.Declaring := by
  have hclosed := closed_loopHeader hnamed h
  obtain ⟨target, equal, initial, expr, start, hsplit, -, -, hcases⟩ := loopHeader_cases h
  obtain ⟨rfl, -⟩ := Token.eq_append_of_splitTop hsplit
  obtain ⟨first, declaration, rfl, -, -, hdeclaring⟩ | ⟨-, hreusing⟩ := hcases
  · obtain ⟨name, type, text, hname, -, -, -, rfl⟩ := eq_of_declaringHeader hdeclaring
    have hown := isName_of_declaredName?
      (fun t ht => hnamed.left t (List.mem_cons_of_mem _ ht)) hname
    refine ⟨hclosed, by simp, ?_⟩
    rintro _ ⟨⟩
    exact ⟨Typed.nonempty_of_isSolid (isSolid_type type), hown, rfl⟩
  · obtain ⟨named, typed, text, -, -, -, -, -, rfl⟩ := eq_of_reusingHeader hreusing
    exact ⟨hclosed, fun _ => rfl, by simp⟩

/-- A clause leaves the variable of its header as it is. -/
theorem declaring_withClause {part : Clause} {text : String} (h : loop.Declaring)
    (htext : Closed text.toList) : (withClause loop part text).Declaring := by
  have hclosed : (withClause loop part text).IsClosed := closed_withClause h.closed htext
  cases part with
  | bound => exact ⟨hclosed, h.reused, h.own⟩
  | step => exact ⟨hclosed, h.reused, h.own⟩

/-- A header that starts to wait changes no names. -/
theorem NamesApart.waits {diagnostics : List Diagnostic} {seenMain : Bool} (h : e.NamesApart)
    (hdeclaring : waiting.Declaring) :
    NamesApart { e with pending := some waiting, diagnostics, seenMain } := by
  refine ⟨h.apart, h.names, h.nodup, fun header hpending => ?_⟩
  cases hpending
  exact hdeclaring

/-- The word `main` declares nothing. -/
theorem NamesApart.start (h : e.NamesApart) (hstart : e.start s = .ok e') : e'.NamesApart := by
  obtain ⟨-, -, -, rfl⟩ := eq_of_start hstart
  exact h.waits trivial

/-- A block header declares nothing until its brace comes. -/
theorem NamesApart.header (h : e.NamesApart) (hs : s.Written) (hheader : e.header deny s = .ok e') :
    e'.NamesApart := by
  obtain ⟨waiting, hwaiting, rfl⟩ := eq_of_header hheader
  refine h.waits ?_
  rcases headerOf_cases hwaiting with
    ⟨-, text, -, rfl⟩ | ⟨-, text, -, rfl⟩ | ⟨-, -, loop, hloop, rfl⟩
  · exact loopVariable?_of_head? (by simp)
  · exact loopVariable?_of_head? (by simp)
  · exact declaring_of_loopHeader (fun t ht => hs.named t (List.mem_cons_of_mem _ ht)) hloop

/-- An `else` declares nothing. -/
theorem NamesApart.alternative {closed : Option Scope.Kind} (h : e.NamesApart)
    (halternative : e.alternative deny closed s = .ok e') : e'.NamesApart := by
  obtain ⟨-, waiting, hwaiting, rfl⟩ := eq_of_alternative halternative
  refine h.waits ?_
  rcases alternativeOf_cases hwaiting with ⟨-, rfl⟩ | ⟨next, run, text, -, -, -, rfl⟩ <;>
    exact loopVariable?_of_head? (by simp)

/-- A clause of a loop declares nothing. -/
theorem NamesApart.clause {part : Clause} (h : e.NamesApart) (hs : s.Written)
    (hclause : e.clause deny part s = .ok e') : e'.NamesApart := by
  obtain ⟨expr, typed, header, hparse, hvalue, hheader, -, rfl⟩ := eq_of_clause hclause
  have htext := (Expr.isArgument_of_value (Expr.wellSpelled_of_parse hparse hs.named).isNamed
    (value_of_clauseValue hvalue).1).closed
  exact h.waits (declaring_withClause (h.pending _ hheader) htext)

end Headers

variable {kind : Scope.Kind} {names : List String}

/-- A header in a line of its own opens a block with the names that it declares. -/
theorem apart_opening (h : e.NamesApart) (hopens : OpensFresh kind text)
    (hvariable : (loopVariable? text.toList).toList = Target.escaped names) (hnodup : names.Nodup) :
    Apart (e.enter kind text).lines ∧
      namesBehind (e.enter kind text).lines = Target.escaped names :: e.scopes.escaped := by
  have hafter : namesAfter (namesBehind e.lines) text.toList =
      Target.escaped names :: e.scopes.escaped := by
    rw [namesAfter_header hopens, hvariable, h.names]
  refine ⟨⟨keepsApart_brace ?_ (.inl hopens.opens) (.inr ?_), h.apart⟩, hafter⟩
  · rw [hafter]
    exact List.forall_mem_cons.2 ⟨distinct_escaped hnodup, Scopes.distinct_of_allNodup h.nodup⟩
  · rw [h.names]
    exact e.scopes.temporary_not_mem

/-- The header of anything but a loop declares no names. -/
theorem NamesApart.enter (h : e.NamesApart) (hopens : OpensFresh kind text)
    (hnone : loopVariable? text.toList = none) : (e.enter kind text).NamesApart := by
  have hvariable : (loopVariable? text.toList).toList = Target.escaped [] := by
    rw [hnone]
    rfl
  obtain ⟨hapart, hbehind⟩ := apart_opening h hopens hvariable List.nodup_nil
  exact ⟨hapart, hbehind, h.nodup.enter kind, h.pending⟩

/-- The main block declares the arguments of the program, in its second line. -/
theorem NamesApart.openMain (h : e.NamesApart) (hpending : e.pending = none)
    (hmain : e.openMain = .ok e') : e'.NamesApart := by
  obtain ⟨declared, scopes, hdeclare, rfl⟩ := eq_of_openMain hmain
  have hentered := h.enter .main (loopVariable?_of_head? (by decide))
  have hargs : IsSentence
      "const rt::vector<std::string> args = rt::make_args(argc, argv);" := by
    constructor <;> rfl
  have hbody : Binds [.flat "const rt::vector<std::string> args = rt::make_args(argc, argv);"]
      ["args"] :=
    .flat (List.forall_mem_singleton.2 ⟨rfl, hargs⟩) rfl
  have hdepth : (e.enter .main "int main(int argc, char** argv) \x7b").scopes.depth = scopes.depth :=
    (depth_eq_of_kinds (kinds_of_declare hdeclare)).symm
  refine hentered.binds hpending ⟨_, _, scopes, e.diagnostics, hbody, Scopes.names_declare hdeclare,
    hentered.nodup.declare hdeclare, ?_⟩
  rw [hdepth]
  rfl

/-- A loop has the variable that it declares as the first name of its block. -/
theorem NamesApart.openLoop {header : LoopHeader} (h : e.NamesApart) (hheader : header.Declaring)
    (hloop : e.openLoop deny header = .ok e') : e'.NamesApart := by
  obtain ⟨bound, args, hbound, rfl, hopens⟩ := eq_of_openLoop hloop
  have hclosed := hheader.closed
  have hstep : Closed (header.step.getD "1").toList := by
    cases hsome : header.step with
    | none => exact .of_quiet rfl
    | some text => exact hclosed.step text hsome
  have hargs : ∀ text ∈ [header.type, header.name, header.start, bound, header.step.getD "1"],
      Closed text.toList := by
    simp [hclosed.type, hclosed.name, hclosed.start, hclosed.bound bound hbound, hstep]
  -- The header is read argument by argument, so that its second is the variable as it is spelled.
  have hvariable := loopVariable?_loop hargs
  obtain ⟨hnone, rfl⟩ | ⟨own, hdeclares, hdeclare⟩ := hopens
  · rw [if_pos (hheader.reused hnone)] at hvariable
    exact h.enter (.forLoop _) hvariable
  · obtain ⟨htype, hname, hsame⟩ := hheader.own own hdeclares
    have hcontent := (content_of_isFlush (isSolid_iff.1 (isSolid_name hname)).1).1
    rw [if_neg htype, hsame, hcontent, ← hsame] at hvariable
    have hown : (loopVariable? ("RT_FOR(" ++ ", ".intercalate
        [header.type, header.name, header.start, bound, header.step.getD "1"] ++
          ") \x7b").toList).toList = Target.escaped [own.name] := by
      rw [hvariable, hsame]
      rfl
    obtain ⟨hapart, hbehind⟩ := apart_opening h (.forLoop _) hown (List.nodup_singleton _)
    obtain ⟨declared, scopes, hscopes, rfl⟩ := eq_of_declare hdeclare
    have hentered := h.nodup.enter .loop
    refine ⟨hapart, ?_, hentered.declare hscopes, h.pending⟩
    rw [hbehind, Scopes.escaped, Scopes.escaped, Scopes.names_declare hscopes]
    rfl

/-- An `else` goes on behind the brace that closed the block of an `if`. Its line closes no further
block, and the one it opens declares nothing yet. -/
theorem NamesApart.extend {depth : Nat} {earlier : List Line} (h : e.NamesApart)
    (hlines : e.lines = ⟨depth, "\x7d"⟩ :: earlier) (hopens : OpensElse kind text) :
    NamesApart { e with
      lines := ⟨depth, "\x7d" ++ (" " ++ text)⟩ :: earlier, scopes := e.scopes.enter kind } := by
  have hnames := h.names
  have hapart := h.apart
  rw [hlines] at hnames hapart
  rw [namesBehind, namesAfter_brace] at hnames
  have hafter : namesAfter (namesBehind earlier) ("\x7d" ++ (" " ++ text)).toList =
      [] :: e.scopes.escaped := by
    rw [← hnames, ← String.append_assoc]
    exact namesAfter_else hopens _
  have hcloses : closes ("\x7d" ++ (" " ++ text)).toList = true := by
    rw [← String.append_assoc]
    exact (hopens.blocksAfter []).2.1
  have hopening : opens ("\x7d" ++ (" " ++ text)).toList = true := by
    rw [← String.append_assoc]
    exact opens_append _ hopens.opens
  refine ⟨⟨keepsApart_brace ?_ (.inl hopening) (.inl hcloses), hapart.2⟩, hafter, h.nodup.enter kind,
    h.pending⟩
  rw [hafter]
  exact List.forall_mem_cons.2 ⟨distinct_nil, Scopes.distinct_of_allNodup h.nodup⟩

/-- The line that opens the block of a loop declares the loop variable inside it. Other braces
declare nothing. -/
theorem NamesApart.opens (h : e.NamesApart) (hstructured : e.Structured)
    (hopens : Opens deny e e') : e'.NamesApart := by
  have hfree : NamesApart { e with pending := none } := ⟨h.apart, h.names, h.nodup, by simp⟩
  cases hopens with
  | plain => exact hfree.enter .plain (loopVariable?_of_head? (by decide))
  | main _ hmain => exact hfree.openMain rfl hmain
  | @goesOn kind text hpending =>
    obtain ⟨⟨depth, earlier, branch, outer, hlines, -⟩, hopens, -⟩ :=
      hstructured.pending _ hpending
    have hextended : (e.extend (" " ++ text ++ "\x7b")).lines =
        ⟨depth, "\x7d" ++ (" " ++ (text ++ "\x7b"))⟩ :: earlier := by
      simp only [Emission.extend, hlines, String.append_assoc]
    rw [hextended]
    exact hfree.extend hlines hopens
  | block hpending =>
    obtain ⟨hopens, -⟩ := hstructured.pending _ hpending
    exact hfree.enter hopens (h.pending _ hpending)
  | loop hpending hloop => exact hfree.openLoop (h.pending _ hpending) hloop

/-- A closing brace drops the names of its block. -/
theorem NamesApart.closeBlock {position : Position} (h : e.NamesApart) (hpending : e.pending = none)
    (hclose : e.closeBlock position = .ok e') : e'.NamesApart := by
  obtain ⟨scope, scopes, inner, hleave, hinner, rfl⟩ := eq_of_closeBlock hclose
  obtain ⟨hnext, hsame, hnone⟩ :
      inner.NamesApart ∧ inner.scopes = e.scopes ∧ inner.pending = none := by
    obtain ⟨-, rfl⟩ | ⟨-, rfl⟩ := hinner
    · exact ⟨h.line rfl rfl rfl, rfl, hpending⟩
    · exact ⟨h, rfl, hpending⟩
  have hleft : namesAfter (namesBehind inner.lines) "\x7d".toList = scopes.escaped := by
    rw [namesAfter_brace, hnext.names, hsame, Scopes.escaped, Scopes.escaped,
      Scopes.names_leave hleave, List.map_tail]
  have hdistinct := Scopes.distinct_of_allNodup (h.nodup.leave hleave)
  have hdeclared : declared? (content "\x7d".toList) = none := rfl
  exact ⟨⟨keepsApart_brace (hleft ▸ hdistinct) (.inr hdeclared) (.inl closes_brace), hnext.apart⟩,
    hleft, h.nodup.leave hleave, by simp [Emission.line, hnone]⟩

/-- A statement keeps names apart. -/
theorem NamesApart.step (h : e.NamesApart) (hstructured : e.Structured) (hs : s.Written)
    (hstep : e.step deny s = .ok e') : e'.NamesApart := by
  have hfree : NamesApart { e with closed := none } := ⟨h.apart, h.names, h.nodup, h.pending⟩
  cases Act.of_step hstep with
  | start _ _ hstart => exact hfree.start hstart
  | declaration _ hpending hdeclaration =>
    exact hfree.binds hpending (declaration_bindsNames hs h.nodup hdeclaration)
  | operation _ hpending _ hoperation =>
    exact hfree.binds hpending (operation_bindsNames hs h.nodup hoperation)
  | assignment _ hpending _ hassignment =>
    exact hfree.binds hpending (assignment_bindsNames hs h.nodup hassignment)
  | header _ _ _ hheader => exact hfree.header hs hheader
  | alternative _ _ _ halternative => exact hfree.alternative halternative
  | bound _ hclause | step _ hclause => exact hfree.clause hs hclause
  | jump hkind _ _ hjump => exact hfree.jump hs hkind hjump
  | result _ _ _ hresult => exact hfree.result hs hresult
  | opening _ _ hopens =>
    exact hfree.opens ⟨hstructured.mirrors, by simp, hstructured.pending⟩ hopens
  | closing _ hpending hcloses => exact hfree.closeBlock hpending hcloses

/-- A run keeps names apart. A scope refuses to declare a name twice, and the blocks that are open
in the generated program are those of the open scopes. -/
theorem NamesApart.run {statements : List Statement} (h : e.NamesApart)
    (hstructured : e.Structured) (hs : ∀ s ∈ statements, s.Written)
    (hrun : run deny e statements = .ok e') : e'.NamesApart := by
  have hboth : e'.NamesApart ∧ e'.Structured := by
    refine run_induction (P := fun e₁ => e₁.NamesApart ∧ e₁.Structured) hrun ⟨h, hstructured⟩ ?_
    rintro s hmem e₁ e₂ ⟨hkept, hkeeps⟩ hstep
    exact ⟨hkept.step hkeeps (hs s hmem) hstep, (hkeeps.step (hs s hmem) hstep).1⟩
  exact hboth.1

end Emission

end Sprout
