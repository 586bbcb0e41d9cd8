import Sprout.Proofs.Arguments.Values
import Sprout.Proofs.Blocks.Structure

namespace Sprout

open Target

/-- The parts of a `for` header are closed texts: its type, the name and the start of its variable,
the bound and the step. So the macro that the header becomes gets five arguments. -/
structure LoopHeader.IsClosed (header : LoopHeader) : Prop where
  type : Closed header.type.toList
  name : Closed header.name.toList
  start : Closed header.start.toList
  bound : ∀ text, header.bound = some text → Closed text.toList
  step : ∀ text, header.step = some text → Closed text.toList

namespace Emission

variable {deny : Bool} {scopes : Scopes} {e e' : Emission} {s : Statement} {expr : Expr}
variable {header : LoopHeader} {run : List Token}

/-- The name of a numeric type has no commas and no parentheses. -/
theorem closed_numeric {type : Ty} (h : type.isNumeric = true) : Closed type.target.toList := by
  cases type with
  | primitive p => exact .of_quiet (by cases p <;> rfl)
  | _ => cases h

/-- A value that is converted to a number is a closed text. -/
theorem closed_converted {start : Typed} {type : Ty} {p : Position} {text : String}
    (hstart : start.IsArgument) (htype : type.isNumeric = true)
    (h : (start.converted type p).outcome = .ok text) : Closed text.toList := by
  rcases Typed.converted_eq_ok h with rfl | rfl
  · exact hstart.closed
  · have hcast : Closed ("static_cast<" ++ type.target ++ ">").toList :=
      Typed.closed_append (Typed.closed_append (.of_quiet rfl) (closed_numeric htype)) (.of_quiet rfl)
    have hwhole : Closed ("static_cast<" ++ type.target ++ ">" ++ "(" ++
        Typed.argumentText [start] ++ ")").toList := Typed.closed_call hcast (by simp [hstart])
    simpa [Typed.argumentText, String.append_assoc] using hwhole

/-- A header that declares its variable consists of closed texts. -/
theorem closed_declaringHeader {keyword : Token} {declaration : List Token} {start : Typed}
    (hnamed : Token.Named declaration) (hstart : start.IsArgument)
    (h : (declaringHeader scopes keyword declaration expr start).outcome = .ok header) :
    header.IsClosed := by
  obtain ⟨name, type, text, hname, -, hnumeric, htext, rfl⟩ := eq_of_declaringHeader h
  have hown := isName_of_declaredName? hnamed hname
  exact ⟨closed_numeric hnumeric, closed_name hown, closed_converted hstart hnumeric htext,
    by simp, by simp⟩

/-- A header that reuses a variable consists of closed texts. -/
theorem closed_reusingHeader {target : List Token} {start : Typed} (hnamed : Token.Named target)
    (hstart : start.IsArgument)
    (h : (reusingHeader scopes target expr start).outcome = .ok header) : header.IsClosed := by
  obtain ⟨named, typed, text, hparse, htyped, -, hnumeric, htext, rfl⟩ := eq_of_reusingHeader h
  have hvariable := Expr.isArgument_of_value (Expr.wellSpelled_of_parse hparse hnamed).isNamed htyped
  exact ⟨.nil, hvariable.closed, closed_converted hstart hnumeric htext, by simp, by simp⟩

/-- A `for` header consists of closed texts. -/
theorem closed_loopHeader {keyword : Token} (hnamed : Token.Named run)
    (h : (loopHeader scopes keyword run).outcome = .ok header) : header.IsClosed := by
  obtain ⟨target, equal, initial, start, typed, hsplit, hparse, htyped, hcases⟩ := loopHeader_cases h
  obtain ⟨rfl, -⟩ := Token.eq_append_of_splitTop hsplit
  have hstart :=
    Expr.isArgument_of_value (Expr.wellSpelled_of_parse hparse hnamed.right).isNamed htyped
  rcases hcases with ⟨first, declaration, rfl, -, -, hdeclaring⟩ | ⟨-, hreusing⟩
  · exact closed_declaringHeader (fun t ht => hnamed.left t (List.mem_cons_of_mem _ ht)) hstart
      hdeclaring
  · exact closed_reusingHeader hnamed.left hstart hreusing

/-- A `for` header whose parts are closed waits for its brace, behind lines that stay as they are. -/
def AwaitsLoop (scopes : Scopes) (lines : List Line) (e : Emission) : Prop :=
  e.scopes = scopes ∧ e.lines = lines ∧
    ∃ header, e.pending = some (.loop header) ∧ LoopHeader.IsClosed header

/-- The first clause of a loop starts to wait. -/
theorem awaitsLoop_of_step (hnamed : Token.Named s.tokens) (hkind : s.kind = .header)
    (hlead : s.lead.kind = .keyword .forWord) (h : e.step deny s = .ok e') :
    AwaitsLoop e.scopes e.lines e' := by
  have hdispatch := dispatch_of_step h
  simp only [dispatch, hkind] at hdispatch
  obtain ⟨waiting, hwaiting, rfl⟩ := eq_of_header hdispatch
  simp only [headerOf, hlead, Checked.outcome_bind_eq_ok_iff] at hwaiting
  obtain ⟨header, hheader, heq⟩ := hwaiting
  cases heq
  exact ⟨rfl, rfl, header, rfl,
    closed_loopHeader (fun t ht => hnamed t (List.mem_cons_of_mem _ ht)) hheader⟩

/-- A closed clause keeps a header closed. -/
theorem closed_withClause {part : Clause} {text : String} (h : header.IsClosed)
    (htext : Closed text.toList) : (withClause header part text).IsClosed := by
  have hown : ∀ text', some text = some text' → Closed text'.toList := by
    intro text' heq
    cases heq
    exact htext
  cases part with
  | bound => exact ⟨h.type, h.name, h.start, hown, h.step⟩
  | step => exact ⟨h.type, h.name, h.start, h.bound, hown⟩

/-- Another clause of the loop goes on waiting. -/
theorem AwaitsLoop.clause {lines : List Line} (hawaits : AwaitsLoop scopes lines e)
    (hnamed : Token.Named s.tokens) (hkind : s.kind = .bound ∨ s.kind = .step)
    (h : e.step deny s = .ok e') : AwaitsLoop scopes lines e' := by
  obtain ⟨hscopes, hlines, header, hpending, hclosed⟩ := hawaits
  obtain ⟨part, hclause⟩ := clause_of_step h hkind
  obtain ⟨expr, typed, header', hparse, hvalue, hheader, -, rfl⟩ := eq_of_clause hclause
  have hsame : some (Header.loop header) = some (.loop header') := hpending.symm.trans hheader
  cases hsame
  have htext := (Expr.isArgument_of_value (Expr.wellSpelled_of_parse hparse hnamed).isNamed
    (value_of_clauseValue hvalue).1).closed
  exact ⟨hscopes, hlines, _, rfl, closed_withClause hclosed htext⟩

/-- The clauses between a header and its brace add their texts, all of which are closed, and no
line. -/
theorem AwaitsLoop.clauses {lines : List Line} {clauses after : List Statement}
    (hawaits : AwaitsLoop scopes lines e) (hnamed : ∀ c ∈ clauses, Token.Named c.tokens)
    (hkinds : ∀ c ∈ clauses, c.kind = .bound ∨ c.kind = .step)
    (h : Emission.run deny e (clauses ++ after) = .ok e') :
    ∃ e₁, AwaitsLoop scopes lines e₁ ∧ Emission.run deny e₁ after = .ok e' := by
  induction clauses generalizing e with
  | nil => exact ⟨e, hawaits, h⟩
  | cons first clauses ih =>
    rw [List.forall_mem_cons] at hnamed hkinds
    obtain ⟨e₁, hstep, hrun⟩ := run_cons h
    exact ih (hawaits.clause hnamed.1 hkinds.1 hstep) hnamed.2 hkinds.2 hrun

/-- The brace of a loop emits its line: the macro with five arguments. The parts that waited are
closed texts, so the commas between them are the only ones the macro sees. -/
theorem AwaitsLoop.opened {lines : List Line} (hawaits : AwaitsLoop scopes lines e)
    (hkind : s.kind = .opening) (h : e.step deny s = .ok e') :
    ∃ call, e'.lines = ⟨scopes.depth, call ++ " \x7b"⟩ :: lines ∧ IsCall "RT_FOR" call 5 := by
  obtain ⟨rfl, rfl, header, hpending, hclosed⟩ := hawaits
  have hdispatch := dispatch_of_step h
  simp only [dispatch, hkind, openBlock, hpending] at hdispatch
  obtain ⟨bound, args, hbound, rfl, hopens⟩ := eq_of_openLoop hdispatch
  have hstep : Closed (header.step.getD "1").toList := by
    cases hsome : header.step with
    | none => exact .of_quiet rfl
    | some text => exact hclosed.step text hsome
  have hcall : IsCall "RT_FOR" ("RT_FOR" ++ "(" ++ ", ".intercalate
      [header.type, header.name, header.start, bound, header.step.getD "1"] ++ ")") 5 := by
    refine .of_closed (.of_quiet rfl) ?_ (by simp)
    simp [hclosed.type, hclosed.name, hclosed.start, hclosed.bound bound hbound, hstep]
  refine ⟨_, ?_, hcall⟩
  obtain ⟨-, rfl⟩ | ⟨own, -, hdeclare⟩ := hopens
  · simp [enter, line, String.append_assoc]
  · obtain ⟨declared, scopes, -, rfl⟩ := eq_of_declare hdeclare
    simp [enter, line, String.append_assoc]

end Emission

/-- The first clause of a loop, the other clauses and the brace behind them. -/
structure Statement.IsLoop (s : Statement) (clauses : List Statement) (brace : Statement) : Prop where
  kind : s.kind = .header
  lead : s.lead.kind = .keyword .forWord
  clauses : ∀ c ∈ clauses, c.kind = .bound ∨ c.kind = .step
  brace : brace.kind = .opening

/-- What is emitted as one argument is one. The text of every value stands by itself, and that of a
call is a call with as many arguments. So every `for` header of a source, accepted up to its brace, is
emitted as a line that calls the macro with five arguments. -/
theorem emitted_arguments :
    (∀ (scopes : Scopes) (e : Expr) (typed : Typed), e.IsNamed → (e.value scopes).outcome = .ok typed →
      SelfContained typed.text.toList ∧
        ∀ args, e.passed? = some args → ∃ callee, IsCall callee typed.text args.length) ∧
    ∀ (source : Source) (deny : Bool) (tokens : List Token) (before clauses after : List Statement)
      (s brace : Statement) (e' : Emission),
      source.significant = .ok tokens →
      source.statements tokens = .ok (before ++ s :: (clauses ++ brace :: after)) →
      s.IsLoop clauses brace →
      Emission.run deny {} (before ++ s :: (clauses ++ [brace])) = .ok e' →
      ∃ e call, Emission.run deny {} before = .ok e ∧
        e'.lines = ⟨e.scopes.depth, call ++ " \x7b"⟩ :: e.lines ∧ IsCall "RT_FOR" call 5 := by
  constructor
  · intro scopes e typed hnamed h
    exact ⟨(Expr.isArgument_of_value hnamed h).closed.selfContained,
      fun args hargs => Expr.isCall_of_value hnamed hargs h⟩
  · intro source deny tokens before clauses after s brace e' htokens hstatements hloop hrun
    have hnamed : ∀ c ∈ before ++ s :: (clauses ++ brace :: after), Token.Named c.tokens :=
      fun c hc => (Source.written_of_statements htokens hstatements c hc).named
    obtain ⟨e, e₁, hbefore, hstep, hclauses⟩ := Emission.run_append hrun
    have hawaits := Emission.awaitsLoop_of_step (hnamed s (by simp)) hloop.kind hloop.lead hstep
    obtain ⟨e₂, hawaits, hbrace⟩ :=
      hawaits.clauses (fun c hc => hnamed c (by simp [hc])) hloop.clauses hclauses
    obtain ⟨e₃, hopened, hdone⟩ := Emission.run_cons hbrace
    cases hdone
    obtain ⟨call, hlines, hcall⟩ := hawaits.opened hloop.brace hopened
    exact ⟨e, call, hbefore, hlines, hcall⟩

/-- The text of a string that looks like the end of one call and the start of another. -/
private def quotedText : Expr :=
  .convert .str [] [.literal (.str "), f(\"") ⟨1, 5⟩] ⟨1, 1⟩

/-- A loop whose bound is a call. -/
private def loopToGreatest : Source :=
  ⟨"greatest", "main\x7bfor var i=0;max(2,1)\x7b\x7d\x7d"⟩

/-- The comma and the parenthesis inside quotes do not count, and the macro of the loop gets five
arguments. -/
theorem loopToGreatest_arguments :
    (∃ typed, (quotedText.value {}).outcome = .ok typed ∧
      typed.text = "rt::to_str(std::string(\"), f(\\\"\"))" ∧ SelfContained typed.text.toList ∧
      ∃ callee, IsCall callee typed.text 1) ∧
    ∃ tokens before s bound brace after e e' call, loopToGreatest.significant = .ok tokens ∧
      loopToGreatest.statements tokens = .ok (before ++ s :: ([bound] ++ brace :: after)) ∧
      s.IsLoop [bound] brace ∧
      Emission.run false {} (before ++ s :: ([bound] ++ [brace])) = .ok e' ∧
      Emission.run false {} before = .ok e ∧
      e'.lines = ⟨e.scopes.depth, call ++ " \x7b"⟩ :: e.lines ∧ IsCall "RT_FOR" call 5 := by
  constructor
  · have htext : (quotedText.value {}).outcome.toOption.map Typed.text =
        some "rt::to_str(std::string(\"), f(\\\"\"))" := by decide +kernel
    obtain ⟨typed, htyped, htext⟩ := Option.map_eq_some_iff.1 htext
    replace htyped := eq_ok_of_toOption htyped
    have hnamed : quotedText.IsNamed := by
      intro name position hwithin
      cases hwithin with
      | child hchild hwithin =>
        cases List.mem_singleton.1 hchild
        cases hwithin with
        | child hchild => cases hchild
    obtain ⟨hself, hcalls⟩ := emitted_arguments.1 {} quotedText typed hnamed htyped
    exact ⟨typed, htyped, htext, hself, hcalls _ rfl⟩
  · have hseen : (do
        let tokens ← loopToGreatest.significant.toOption
        let statements ← (loopToGreatest.statements tokens).toOption
        let _ ← (Emission.run false {} (statements.take 5)).toOption
        pure (statements.map fun s : Statement => (s.kind, s.lead.kind))) =
          some [(.main, .keyword .main), (.opening, .openBrace), (.header, .keyword .forWord),
            (.bound, .identifier), (.opening, .openBrace), (.closing, .closeBrace),
            (.closing, .closeBrace)] := by decide +kernel
    simp only [Option.bind_eq_bind, Option.bind_eq_some_iff, Option.pure_def, Option.some.injEq,
      List.map_eq_cons_iff, List.map_eq_nil_iff, Prod.mk.injEq] at hseen
    obtain ⟨tokens, htokens, _, hstatements, e', hrun, main, _, rfl, -, opening, _, rfl, -, s, _, rfl,
      ⟨hkind, hlead⟩, bound, _, rfl, ⟨hbound, -⟩, brace, after, rfl, ⟨hbrace, -⟩, -⟩ := hseen
    replace htokens := eq_ok_of_toOption htokens
    have hloop : s.IsLoop [bound] brace := ⟨hkind, hlead, by simp [hbound], hbrace⟩
    have hsplit : loopToGreatest.statements tokens =
        .ok ([main, opening] ++ s :: ([bound] ++ brace :: after)) := eq_ok_of_toOption hstatements
    have hprefix : Emission.run false {} ([main, opening] ++ s :: ([bound] ++ [brace])) = .ok e' :=
      eq_ok_of_toOption hrun
    obtain ⟨e, call, hbefore, hlines, hcall⟩ :=
      emitted_arguments.2 _ _ _ _ _ _ _ _ _ htokens hsplit hloop hprefix
    exact ⟨tokens, _, s, bound, brace, after, e, e', call, htokens, hsplit, hloop, hprefix, hbefore,
      hlines, hcall⟩

end Sprout
