import Sprout.Proofs.Blocks.Texts
import Sprout.Proofs.Effects.Statements

namespace Sprout

namespace Target

/-- Whether a text holds a blank, a bracket or a sign, as neither `break;` nor `continue;` does. -/
def isCompound (text : String) : Bool :=
  text.toList.any fun c => c = ' ' || c = '(' || c = '+' || c = '-'

@[simp] theorem isCompound_append (text more : String) :
    isCompound (text ++ more) = (isCompound text || isCompound more) := by
  simp [isCompound]

/-- Whether a text ends with a semicolon, as the lines of declarations, assignments and operations
do. Only where a call is unpacked, a block of braces holds some of them. -/
def isEnded (text : String) : Bool :=
  text.toList.getLast? = some ';'

/-- A text ends with a semicolon if its last part does. -/
theorem isEnded_append (text : String) {more : String} (h : isEnded more = true) :
    isEnded (text ++ more) = true := by
  unfold isEnded at h ⊢
  rw [decide_eq_true_eq] at h ⊢
  rw [String.toList_append, List.getLast?_append, h]
  rfl

/-- A statement of the generated program, except for those that leave a loop. -/
structure IsSentence (text : String) : Prop where
  solid : isSolid text = true
  ended : isEnded text = true
  compound : isCompound text = true

/-- A text that starts flush and has more than one word is a sentence with a semicolon behind it. -/
theorem IsSentence.mk_append {front : String} (hsolid : isSolid front = true)
    (hcompound : isCompound front = true) : IsSentence (front ++ ";") :=
  ⟨isSolid_append hsolid rfl, isEnded_append _ rfl, by simp [hcompound]⟩

/-- A sentence with a text in front of it is one, if that text starts flush. -/
theorem IsSentence.append {front text : String} (hfront : isSolid front = true)
    (h : IsSentence text) : IsSentence (front ++ text) :=
  ⟨isSolid_append hfront (isSolid_iff.1 h.solid).2, isEnded_append _ h.ended, by simp [h.compound]⟩

/-- What is assigned is a sentence: two texts with a sign between them, and a semicolon. -/
theorem IsSentence.assigned {left right : String} (hleft : isSolid left = true)
    (hright : isOneLine right = true) : IsSentence (left ++ " = " ++ right ++ ";") := by
  refine .mk_append (isSolid_append (isSolid_append hleft rfl) hright) ?_
  rw [isCompound_append, isCompound_append]
  simp [isCompound]

end Target

open Target

/-- Sentences at a depth. -/
def Sentences (depth : Nat) (lines : List Line) : Prop :=
  ∀ l ∈ lines, l.depth = depth ∧ IsSentence l.text

/-- The lines of a statement: sentences, behind which a block of sentences may stand. -/
inductive IsBody : List Line → Prop
  | flat {lines} (h : Sentences 0 lines) : IsBody lines
  | unpacked {front inner} (hfront : Sentences 0 front) (hinner : Sentences 1 inner) :
    IsBody (front ++ (⟨0, "\x7b"⟩ :: (inner ++ [⟨0, "\x7d"⟩])))

/-- No lines are sentences at any depth. -/
theorem Sentences.nil {depth : Nat} : Sentences depth [] := by
  intro l hl
  cases hl

/-- Sentences are put together line by line. -/
theorem Sentences.cons {depth : Nat} {text : String} {lines : List Line} (htext : IsSentence text)
    (h : Sentences depth lines) : Sentences depth (⟨depth, text⟩ :: lines) :=
  List.forall_mem_cons.2 ⟨⟨rfl, htext⟩, h⟩

/-- Sentences may stand in front of a body. -/
theorem IsBody.behind {front lines : List Line} (hfront : Sentences 0 front) (h : IsBody lines) :
    IsBody (front ++ lines) := by
  cases h with
  | flat h => exact .flat (List.forall_mem_append.2 ⟨hfront, h⟩)
  | unpacked hfront' hinner =>
    rw [← List.append_assoc]
    exact .unpacked (List.forall_mem_append.2 ⟨hfront, hfront'⟩) hinner

variable {scopes : Scopes} {e : Expr} {p : Position} {lines : List Line}

variable {call : Typed} {members : List Ty} {targets : List (String × Ty)}

/-- The members of an unpacked call are assigned by sentences inside the braces, one for each
target. -/
theorem sentences_of_memberLines {index : Nat} (htargets : ∀ t ∈ targets, isSolid t.1 = true)
    (h : (memberLines p index targets members).outcome = .ok lines) : Sentences 1 lines := by
  intro l hl
  obtain ⟨entry, hentry, index, text, htext, rfl⟩ :=
    exists_left_of_mem (forall₂_of_memberLines h) l hl
  have hpart : isSolid ("std::get<" ++ toString index ++ ">(" ++ Target.temporary ++ ")") = true := by
    simp only [isSolid_iff, isFlush_append, isOneLine_append, isOneLine_nat]
    exact ⟨rfl, rfl⟩
  have hright : isSolid text = true := by
    refine Typed.isSolid_converted ?_ htext
    exact hpart
  exact ⟨rfl, .assigned (htargets _ (List.of_mem_zip hentry).1) (isSolid_iff.1 hright).2⟩

/-- A call is unpacked in a block of its own. -/
theorem isBody_of_unpack (hcall : isSolid call.text = true)
    (htargets : ∀ t ∈ targets, isSolid t.1 = true)
    (h : (unpack call members targets p).outcome = .ok lines) : IsBody lines := by
  simp only [unpack, Checked.outcome_bind_eq_ok_iff] at h
  obtain ⟨inner, hinner, heq⟩ := h
  cases heq
  have htemporary : isSolid ("const auto " ++ Target.temporary) = true := by rfl
  have hfirst := IsSentence.assigned htemporary (isSolid_iff.1 hcall).2
  exact .unpacked .nil (.cons hfirst (sentences_of_memberLines htargets hinner))

section Declarations

open Declaration

variable {d : Declaration} {plan : Plan} {type : Option Ty} {isConstant : Bool}

/-- What a line that declares a name starts with. -/
theorem isSolid_declared (type : Ty) {name : Token} (hname : Token.IsName name.lexeme) :
    isSolid (type.target ++ " " ++ Target.name name.lexeme) = true :=
  isSolid_append (isSolid_append (isSolid_type type) rfl) (isSolid_iff.1 (isSolid_name hname)).2

/-- The line of a variable without a value is a sentence. -/
theorem isSentence_defaultLine (type : Ty) {name : Token} (hname : Token.IsName name.lexeme) :
    IsSentence (defaultLine type name).text := by
  have hdeclared := isSolid_declared type hname
  refine ⟨isSolid_append hdeclared rfl, isEnded_append _ rfl, ?_⟩
  simp only [defaultLine, Line.flat, isCompound_append]
  simp [isCompound]

/-- Variables without a value are declared by a sentence each. -/
theorem sentences_of_defaultLines {α : Type} {as : List α} (type : α → Ty) (name : α → Token)
    (hnames : ∀ a ∈ as, Token.IsName (name a).lexeme) :
    Sentences 0 (as.map fun a => defaultLine (type a) (name a)) := by
  intro l hl
  obtain ⟨a, ha, rfl⟩ := List.mem_map.1 hl
  exact ⟨rfl, isSentence_defaultLine _ (hnames a ha)⟩

/-- The line of a name with its initializer is a sentence. -/
theorem isSentence_of_planName {name : Token} {value : Typed} {line : Line} {binding : Binding}
    (hname : Token.IsName name.lexeme) (hvalue : isSolid value.text = true)
    (h : (planName isConstant type name e value).outcome = .ok (line, binding)) :
    line.depth = 0 ∧ IsSentence line.text := by
  obtain ⟨own, text, -, htext, rfl, -⟩ := eq_of_planName h
  have hright := (isSolid_iff.1 (Typed.isSolid_converted hvalue htext)).2
  have hleft := isSolid_declared own hname
  split
  · exact ⟨rfl, .append rfl (.assigned hleft hright)⟩
  · split
    · exact ⟨rfl, isSentence_defaultLine own hname⟩
    · exact ⟨rfl, .assigned hleft hright⟩

/-- Variables with a value are declared by a sentence each, whose value is a text of one line. -/
theorem sentences_of_planNames {entries : List (Token × Expr × Typed)}
    (hentries : ∀ entry ∈ entries, Token.IsName entry.1.lexeme ∧ isSolid entry.2.2.text = true)
    (h : (planNames isConstant type entries).outcome = .ok plan) : Sentences 0 plan.lines := by
  intro l hl
  obtain ⟨entry, hentry, binding, hitem⟩ := exists_left_of_mem (forall₂_lines_of_planNames h) l hl
  obtain ⟨hname, hvalue⟩ := hentries entry hentry
  exact isSentence_of_planName hname hvalue hitem

/-- A declaration that unpacks a call declares its names by sentences and fills them inside braces
behind these. -/
theorem isBody_of_planUnpacked {call : Typed} {members : List Ty}
    (hnames : ∀ name ∈ d.names, Token.IsName name.lexeme) (hcall : isSolid call.text = true)
    (h : (d.planUnpacked type call members p).outcome = .ok plan) : IsBody plan.lines := by
  obtain ⟨-, block, hblock, hlines⟩ := eq_of_planUnpacked h
  have hbound : ∀ b ∈ plan.bindings, Token.IsName b.name.lexeme := by
    intro b hb
    obtain ⟨name, hname, member, -, rfl⟩ := exists_of_mem_planUnpacked h b hb
    exact hnames name hname
  rw [hlines]
  refine .behind (sentences_of_defaultLines Binding.type Binding.name hbound)
    (isBody_of_unpack hcall (fun t ht => ?_) hblock)
  obtain ⟨b, hb, rfl⟩ := List.mem_map.1 ht
  exact isSolid_name (hbound b hb)

/-- The lines of a declaration are a body of sentences, whether its names get default values, the
members of a call, or initial values. -/
theorem isBody_of_plan (hnames : ∀ name ∈ d.names, Token.IsName name.lexeme)
    (hspelled : ∀ e ∈ d.initializers, e.WellSpelled) (h : (d.plan scopes).outcome = .ok plan) :
    IsBody plan.lines := by
  obtain ⟨type, -, hcases⟩ := plan_cases h
  rcases hcases with ⟨hnil, hplan⟩ | ⟨call, members, position, hunpacked, hplan⟩ |
    ⟨first, hunpacked, hplan⟩
  · obtain ⟨own, -, rfl⟩ := eq_of_planDefault hplan
    exact .flat (sentences_of_defaultLines (fun _ => own) id hnames)
  · obtain ⟨e, hsingle, hcall, -⟩ := eq_of_unpackable hunpacked
    exact isBody_of_planUnpacked hnames
      (Expr.isSolid_of_value (hspelled e (by simp [hsingle])) hcall) hplan
  · obtain ⟨-, values, hinitial, hplanned⟩ := planInitialized_eq_ok hplan
    refine .flat (sentences_of_planNames (fun entry hentry => ?_) hplanned)
    obtain ⟨hname, he, hvalue⟩ := initializer_of_entry hinitial entry hentry
    exact ⟨hnames _ hname, Expr.isSolid_of_initializer (hspelled _ he) hvalue⟩

end Declarations

section Assignments

open Assignment

variable {a : Assignment} {places : List Typed} {op : Arithmetic} {symbol : String}

/-- A place starts with the name of its variable. -/
theorem isSolid_of_places {targets : List Expr} (hspelled : ∀ e ∈ targets, e.WellSpelled)
    (h : (Assignment.places scopes targets).outcome = .ok places) :
    ∀ place ∈ places, isSolid place.text = true := by
  intro place hmem
  obtain ⟨e, he, hplace, -⟩ := exists_left_of_mem (forall₂_of_places h) place hmem
  exact Expr.isSolid_of_value (hspelled e he) hplace

/-- Two places are swapped by one sentence: a call with a semicolon behind it, at the depth of the
statement. -/
theorem isSentence_of_swap {targets values : List Expr} {line : Line}
    (hplaces : ∀ place ∈ places, isSolid place.text = true)
    (h : (swap? targets values places).outcome = .ok (some line)) :
    line.depth = 0 ∧ IsSentence line.text := by
  obtain ⟨⟨first, second, rfl, -, rfl⟩, -⟩ := eq_of_swap h
  have hfirst := (isSolid_iff.1 (hplaces first (by simp))).2
  have hsecond := (isSolid_iff.1 (hplaces second (by simp))).2
  refine ⟨rfl, ?_, isEnded_append _ rfl, ?_⟩
  · simp only [Line.flat, isSolid_iff, isFlush_append, isOneLine_append, hfirst, hsecond]
    exact ⟨rfl, rfl⟩
  · simp only [Line.flat, isCompound_append]
    simp [isCompound]

/-- A compound assignment is a sentence, whichever of its forms it takes: with its own sign, or with
its place written twice around a plain one. -/
theorem isSentence_compoundText {place value : Typed} (hsymbol : isOneLine symbol = true)
    (hplace : isSolid place.text = true) (hvalue : isOneLine value.text = true) :
    IsSentence (compoundText op symbol place value) := by
  have hplace' := (isSolid_iff.1 hplace).2
  unfold compoundText
  split
  · refine ⟨?_, isEnded_append _ rfl, ?_⟩
    · simp only [isSolid_iff, isFlush_append, isOneLine_append, (isSolid_iff.1 hplace).1, hplace', hvalue]
      exact ⟨rfl, rfl⟩
    · simp only [isCompound_append]
      simp [isCompound]
  · refine ⟨?_, isEnded_append _ rfl, ?_⟩
    · simp only [isSolid_iff, isFlush_append, isOneLine_append, (isSolid_iff.1 hplace).1, hplace', hvalue,
        (isSolid_iff.1 (isSolid_type place.type)).2]
      exact ⟨rfl, rfl⟩
    · simp only [isCompound_append]
      simp [isCompound]
  · refine ⟨?_, isEnded_append _ rfl, ?_⟩
    · simp only [isSolid_iff, isFlush_append, isOneLine_append, (isSolid_iff.1 hplace).1, hplace', hvalue,
        hsymbol]
      exact ⟨rfl, rfl⟩
    · simp only [isCompound_append]
      simp [isCompound]

/-- The line of a compound assignment is a sentence at the depth of the statement. Converting the
value leaves it on its line. -/
theorem isSentence_of_compoundLine {place value : Typed} {line : Line}
    (hsymbol : isOneLine symbol = true) (hplace : isSolid place.text = true)
    (hvalue : isOneLine value.text = true)
    (h : (compoundLine op symbol place value p).outcome = .ok line) :
    line.depth = 0 ∧ IsSentence line.text := by
  rcases eq_of_compoundLine h with ⟨-, rfl⟩ | rfl
  · refine ⟨rfl, isSolid_append (isSolid_append (isSolid_append hplace rfl) hvalue) rfl,
      isEnded_append _ rfl, ?_⟩
    simp only [Line.flat, isCompound_append]
    simp [isCompound]
  · exact ⟨rfl, isSentence_compoundText hsymbol hplace hvalue⟩

/-- Several compound assignments are a sentence each. -/
theorem sentences_of_compoundLines {pairs : List (Typed × Expr)} (hsymbol : isOneLine symbol = true)
    (hplaces : ∀ pair ∈ pairs, isSolid pair.1.text = true)
    (hspelled : ∀ pair ∈ pairs, pair.2.WellSpelled)
    (h : (compoundLines scopes op symbol pairs).outcome = .ok lines) : Sentences 0 lines := by
  intro l hl
  obtain ⟨pair, hpair, value, hvalue, hline⟩ := exists_left_of_mem (forall₂_of_compoundLines h) l hl
  have htext := (isSolid_iff.1 (Expr.isSolid_of_value (hspelled pair hpair) hvalue)).2
  exact isSentence_of_compoundLine hsymbol (hplaces pair hpair) htext hline

/-- Several plain assignments are a sentence each. -/
theorem sentences_of_plainLines {pairs : List (Typed × Expr)}
    (hplaces : ∀ pair ∈ pairs, isSolid pair.1.text = true)
    (hspelled : ∀ pair ∈ pairs, pair.2.WellSpelled)
    (h : (plainLines scopes pairs).outcome = .ok lines) : Sentences 0 lines := by
  intro l hl
  obtain ⟨pair, hpair, value, text, hvalue, htext, rfl⟩ :=
    exists_left_of_mem (forall₂_of_plainLines h) l hl
  have hvalue := Expr.isSolid_of_initializer (hspelled pair hpair) hvalue
  have hright := Typed.isSolid_converted hvalue htext
  exact ⟨rfl, .assigned (hplaces pair hpair) (isSolid_iff.1 hright).2⟩

/-- An assignment of any form is a body: sentences, or braces around those that unpack a call. -/
theorem isBody_of_assignLines (hplaces : ∀ place ∈ places, isSolid place.text = true)
    (hspelled : ∀ e ∈ a.values, e.WellSpelled)
    (h : (a.assignLines scopes places).outcome = .ok lines) : IsBody lines := by
  rcases assignLines_cases h with ⟨line, hswap, rfl⟩ |
    ⟨call, members, position, hunpacked, hunpack⟩ | ⟨-, -, hlines⟩
  · exact .flat (List.forall_mem_singleton.2 (isSentence_of_swap hplaces hswap))
  · obtain ⟨e, hsingle, hcall, -⟩ := eq_of_unpackable hunpacked
    refine isBody_of_unpack (Expr.isSolid_of_value (hspelled e (by simp [hsingle])) hcall)
      (fun t ht => ?_) hunpack
    obtain ⟨place, hplace, rfl⟩ := List.mem_map.1 ht
    exact hplaces place hplace
  · exact .flat (sentences_of_plainLines (fun pair hpair => hplaces _ (mem_of_mem_pairs hpair).1)
      (fun pair hpair => hspelled _ (mem_of_mem_pairs hpair).2) hlines)

/-- The lines of an assignment. -/
theorem isBody_of_lines (hsymbol : ∀ op, a.operator.kind = .compound op →
      isOneLine a.operator.lexeme = true)
    (htargets : ∀ e ∈ a.targets, e.WellSpelled) (hvalues : ∀ e ∈ a.values, e.WellSpelled)
    (h : (a.lines scopes).outcome = .ok lines) : IsBody lines := by
  obtain ⟨places, hplaces, hcases⟩ := lines_cases h
  have hsolid := isSolid_of_places htargets hplaces
  rcases hcases with ⟨op, hop, -, hlines⟩ | ⟨-, hlines⟩
  · exact .flat (sentences_of_compoundLines (hsymbol op hop)
      (fun pair hpair => hsolid _ (mem_of_mem_pairs hpair).1)
      (fun pair hpair => hvalues _ (mem_of_mem_pairs hpair).2) hlines)
  · exact isBody_of_assignLines hsolid hvalues hlines

end Assignments

/-- A step or a call is written with a sign or a bracket. So an expression that is evaluated for its
effect is not mistaken for a statement that leaves a loop. -/
theorem isCompound_of_value {typed : Typed} (h : (e.value scopes).outcome = .ok typed)
    (heffect : (typed.isStep || typed.isCall && typed.type.isVoid) = true) :
    isCompound typed.text = true := by
  have hcall : ∀ callee args : String, isCompound (callee ++ "(" ++ args ++ ")") = true := by
    intro callee args
    rw [isCompound_append, isCompound_append, isCompound_append]
    simp [isCompound]
  have hstep : ∀ {op after inner p}, (Typed.applyStep op after inner p).outcome = .ok typed →
      isCompound typed.text = true := by
    intro op after inner p hstep
    obtain ⟨-, -, -, rfl⟩ := Typed.eq_of_applyStep hstep
    have hsymbol : isCompound op.symbol = true := by cases op <;> rfl
    cases after <;> simp [hsymbol]
  cases Expr.ValueStep.of_value h with
  | number hnumber =>
    obtain ⟨_, rfl⟩ := Typed.eq_of_ofNumber hnumber
    cases heffect
  | literal hliteral =>
    rcases Typed.eq_of_ofLiteral hliteral with ⟨_, -, rfl⟩ | ⟨_, -, -, rfl⟩ | ⟨_, -, rfl⟩ <;>
      cases heffect
  | ident hname =>
    obtain ⟨symbol, -, rfl⟩ := Typed.eq_of_ofName hname
    cases heffect
  | call _ happly =>
    obtain ⟨resolved, -, rfl⟩ := Typed.eq_of_callFunction happly
    exact hcall _ _
  | index _ _ helement =>
    obtain ⟨-, _, -, rfl⟩ := Typed.eq_of_elementAt helement
    cases heffect
  | method _ _ happly =>
    rcases Typed.eq_of_callMethod happly with ⟨_, -, -, helement⟩ | ⟨-, _, -, -, rfl⟩
    · obtain ⟨-, _, -, rfl⟩ := Typed.eq_of_elementAt helement
      cases heffect
    · exact hcall _ _
  | convert _ hconvert =>
    obtain ⟨_, -, rfl⟩ := Typed.eq_of_convert hconvert
    cases heffect
  | unary _ hunary =>
    obtain ⟨-, rfl⟩ := Typed.eq_of_applyUnary hunary
    cases heffect
  | stepBefore _ happly | stepAfter _ happly => exact hstep happly
  | binary _ _ hbinary =>
    obtain ⟨_, -, rfl⟩ := Typed.eq_of_applyBinary hbinary
    cases heffect

/-- The lines of expressions that are evaluated for their effect: steps and calls. -/
theorem sentences_of_operationLines {es : List Expr} (hspelled : ∀ e ∈ es, e.WellSpelled)
    (h : (operationLines scopes es).outcome = .ok lines) : Sentences 0 lines := by
  intro l hl
  obtain ⟨e, he, typed, htyped, heffect, rfl⟩ :=
    exists_left_of_mem (forall₂_of_operationLines h) l hl
  exact ⟨rfl, .mk_append (Expr.isSolid_of_value (hspelled e he) htyped)
    (isCompound_of_value htyped heffect)⟩

end Sprout
