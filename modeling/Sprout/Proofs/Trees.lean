import Sprout.Proofs.Effects.Statements
import Sprout.Proofs.Emission.Contents
import Sprout.Proofs.Parsing.Commas
import Sprout.Proofs.Statements.Pieces
import Sprout.Proofs.Typing.Parts

namespace Sprout

/-- Whether a text stands somewhere in another one, without anything between its characters. -/
def Occurs (text whole : String) : Prop :=
  text.toList <:+: whole.toList

namespace Occurs

variable {text front back whole : String}

/-- Every text stands in itself. -/
theorem refl (text : String) : Occurs text text :=
  List.infix_refl _

/-- What stands in a part stands in the whole. -/
theorem trans (hfront : Occurs text front) (hwhole : Occurs front whole) : Occurs text whole :=
  List.IsInfix.trans hfront hwhole

/-- A text stands in its front part with more behind it. -/
theorem left (h : Occurs text front) : Occurs text (front ++ back) := by
  rw [Occurs, String.toList_append]
  exact List.IsInfix.trans h (List.prefix_append _ _).isInfix

/-- A text stands in its back part with more in front of it. -/
theorem right (h : Occurs text back) : Occurs text (front ++ back) := by
  rw [Occurs, String.toList_append]
  exact List.IsInfix.trans h (List.suffix_append _ _).isInfix

/-- One of several texts stands between the commas that separate all of them. -/
theorem intercalate {texts : List String} (h : text ∈ texts) :
    Occurs text (", ".intercalate texts) := by
  induction texts with
  | nil => cases h
  | cons own texts ih =>
    cases texts with
    | nil =>
      rw [List.mem_singleton.1 h, String.intercalate_singleton]
      exact .refl own
    | cons next texts =>
      rw [String.intercalate_cons_cons]
      rcases List.mem_cons.1 h with rfl | h
      · exact (Occurs.refl text).left.left
      · exact (ih h).right

end Occurs

namespace Expr

/-- What an expression shows besides its parts: its operator, its name or its value, or the bracket
in front of an index or of elements. -/
def label : Expr → String
  | binary op _ _ _ => op.symbol
  | unary op _ _ => op.symbol
  | stepBefore op _ _ | stepAfter op _ _ => op.symbol
  | ident name _ | call name _ _ | field _ name _ | method _ name _ _ => name
  | number value _ => value.render
  | literal value _ => renderLiteral value
  | null _ => "null"
  | typeName name _ _ | convert name _ _ _ => name.name
  | index .. | array .. => "["

variable {e part whole : Expr}

/-- The written form of each of several expressions stands between the commas. -/
theorem occurs_renderAll {es : List Expr} (h : e ∈ es) :
    Occurs e.render (", ".intercalate (renderAll es)) := by
  refine .intercalate ?_
  induction es with
  | nil => cases h
  | cons first es ih =>
    rw [renderAll, List.mem_cons]
    exact (List.mem_cons.1 h).imp (congrArg render) ih

/-- The written form of the size of a dimension stands between its brackets. -/
theorem occurs_renderDimensions {sizes : List (Option Expr)} (h : e ∈ sizes.reduceOption) :
    Occurs e.render (renderDimensions sizes) := by
  induction sizes with
  | nil => cases h
  | cons size sizes ih =>
    cases size with
    | none => exact (ih h).right
    | some size =>
      rw [List.reduceOption_cons_of_some] at h
      rcases List.mem_cons.1 h with rfl | h
      · exact (Occurs.refl _).right.left.left
      · exact (ih h).right

/-- The written form of an expression shows its operator, its name or its value. -/
theorem label_occurs_render (e : Expr) : Occurs e.label e.render := by
  have hself := Occurs.refl e.label
  cases e with
  | binary => exact hself.right.left.left.left.left.left
  | unary | stepBefore | stepAfter => exact hself.right.left.left.left
  | ident | number | literal | null => exact hself
  | call => exact hself.left.left.left
  | index => exact hself.right.left.left
  | field => exact hself.right
  | method => exact hself.right.left.left.left
  | typeName => exact hself.left
  | convert => exact hself.left.left.left.left
  | array => exact hself.left.left

/-- The written form of each part stands in the one of the whole, by cases on the whole. -/
theorem render_occurs_of_child (h : part ∈ whole.children) : Occurs part.render whole.render := by
  have hself := Occurs.refl part.render
  cases whole with
  | binary =>
    simp only [children, List.mem_cons, List.not_mem_nil, or_false] at h
    rcases h with rfl | rfl
    · exact hself.right.left.left.left
    · exact hself.right.left
  | index =>
    simp only [children, List.mem_cons, List.not_mem_nil, or_false] at h
    rcases h with rfl | rfl
    · exact hself.left.left.left
    · exact hself.right.left
  | unary | stepBefore | stepAfter =>
    rw [List.mem_singleton.1 h] at hself ⊢
    exact hself.right.left
  | field =>
    rw [List.mem_singleton.1 h] at hself ⊢
    exact hself.left.left
  | call | array => exact (occurs_renderAll h).right.left
  | method =>
    rcases List.mem_cons.1 h with rfl | h
    · exact hself.left.left.left.left.left
    · exact (occurs_renderAll h).right.left
  | typeName => exact (occurs_renderDimensions h).right
  | convert =>
    rcases List.mem_append.1 h with h | h
    · exact (occurs_renderAll h).right.left
    · exact (occurs_renderDimensions h).right.left.left.left
  | ident | number | literal | null => cases h

/-- The written form of a tree shows all of the tree: the written form of each part stands in it, with
the operator, the name or the value of the part. -/
theorem render_shows (h : Within part whole) :
    Occurs part.label part.render ∧ Occurs part.render whole.render := by
  refine ⟨label_occurs_render part, ?_⟩
  induction h with
  | self => exact .refl part.render
  | child hchild _ ih => exact ih.trans (render_occurs_of_child hchild)

end Expr

namespace Statement

variable {s : Statement} {ts : List Token} {statements : List Statement}

/-- The initializers behind the sign of a statement that starts with a keyword. -/
theorem mapM_initializers {lead : Token} {word : Keyword} {rest : List Token} {es : List Expr}
    (hlead : lead.kind = .keyword word) (heof : ∀ t ∈ rest, t.kind ≠ .eof)
    (h : Declaration.readInitializers (Declaration.cut .equal rest).2 = .ok es) :
    (initializers (lead :: rest)).mapM Expr.parse = .ok es := by
  rw [initializers, Token.splitTop_keyword hlead]
  unfold Declaration.cut at h
  cases hsplit : Token.splitTop (· = .equal) 0 rest with
  | none =>
    rw [hsplit] at h
    cases h
    rfl
  | some split =>
    obtain ⟨before, equal, after⟩ := split
    rw [hsplit] at h
    obtain ⟨after', hafter, hparse⟩ := bind_eq_ok_iff.1 h
    rw [require_eq_ok hafter] at hparse
    obtain ⟨rfl, -⟩ := Token.eq_append_of_splitTop hsplit
    refine Expr.mapM_parse_of_parseList (fun t ht => heof t ?_) hparse
    exact List.mem_append_right before (List.mem_cons_of_mem equal ht)

/-- A condition is the one expression of its run. -/
theorem readCondition_eq_ok {keyword : Token} {run : List Token} {c : Expr}
    (h : readCondition keyword run = .ok c) : Expr.parse run = .ok c := by
  simp only [readCondition, bind_eq_ok_iff, liftM_malformed_eq_ok_iff] at h
  obtain ⟨run', hrun, hparse⟩ := h
  rwa [require_eq_ok hrun] at hparse

/-- A `for` header is read as its initial value, and the run in front of the sign is kept as it
is. -/
theorem readLoop_eq_ok {keyword : Token} {run : List Token} {content : Content}
    (h : readLoop keyword run = .ok content) :
    ∃ target equal initial start, content = .loop target start ∧
      Token.splitTop (· = .equal) 0 run = some (target, equal, initial) ∧
      Expr.parse initial = .ok start := by
  simp only [readLoop, bind_eq_ok_iff, liftM_malformed_eq_ok_iff] at h
  obtain ⟨run', hrun, h⟩ := h
  rw [require_eq_ok hrun] at h
  split at h
  · cases h
  · rename_i target equal initial hsplit
    simp only [bind_eq_ok_iff, liftM_malformed_eq_ok_iff] at h
    obtain ⟨initial', hinitial, start, hparse, heq⟩ := h
    cases heq
    rw [require_eq_ok hinitial] at hparse
    exact ⟨target, equal, initial, start, rfl, hsplit, hparse⟩

/-- The runs of the header of a block hold what the header says: the condition behind its word, or
the initial value of a loop behind the equal sign. -/
theorem mapM_runs_header {content : Content} (hlead : s.lead.kind = .keyword .ifWord ∨
      s.lead.kind = .keyword .whileWord ∨ s.lead.kind = .keyword .forWord)
    (hkind : s.kind = .header) (heof : ∀ t ∈ s.rest, t.kind ≠ .eof)
    (h : readHeader s.lead s.rest = .ok content) : s.runs.mapM Expr.parse = .ok content.trees := by
  have hcondition : s.lead.kind = .keyword .ifWord ∨ s.lead.kind = .keyword .whileWord →
      s.runs.mapM Expr.parse = .ok content.trees := by
    intro hword
    have hruns : s.runs = Token.splitCommas s.rest := by
      rcases hword with hword | hword <;> simp [runs, hkind, hword]
    have hread : (do return .condition (← readCondition s.lead s.rest) : Except Failure Content) =
        .ok content := by
      rcases hword with hword | hword <;> simpa only [readHeader, hword] using h
    obtain ⟨c, hc, heq⟩ := bind_eq_ok_iff.1 hread
    cases heq
    rw [hruns]
    exact Expr.mapM_parse_of_parse heof (readCondition_eq_ok hc)
  rcases hlead with hif | hwhile | hfor
  · exact hcondition (.inl hif)
  · exact hcondition (.inr hwhile)
  · simp only [readHeader, hfor] at h
    obtain ⟨target, equal, initial, start, rfl, hsplit, hparse⟩ := readLoop_eq_ok h
    have hruns : s.runs = Token.splitCommas initial := by
      simp [runs, hkind, hfor, initializers, tokens, Token.splitTop_keyword hfor, hsplit]
    obtain ⟨hrest, -⟩ := Token.eq_append_of_splitTop hsplit
    rw [hruns]
    refine Expr.mapM_parse_of_parse (fun t ht => heof t ?_) hparse
    rw [hrest]
    exact List.mem_append_right target (List.mem_cons_of_mem equal ht)

/-- The condition of an `else if` is shown behind both words. -/
theorem mapM_runs_alternative {content : Content} (hkind : s.kind = .alternative)
    (heof : ∀ t ∈ s.rest, t.kind ≠ .eof) (h : readAlternative s.rest = .ok content) :
    s.runs.mapM Expr.parse = .ok content.trees := by
  cases hrest : s.rest with
  | nil =>
    rw [hrest] at h
    cases h
    simp only [runs, hkind, hrest]
    rfl
  | cons next run =>
    rw [hrest, readAlternative] at h
    split at h
    · obtain ⟨c, hc, heq⟩ := bind_eq_ok_iff.1 h
      cases heq
      simp only [runs, hkind, hrest, List.drop_one, List.tail_cons]
      refine Expr.mapM_parse_of_parse (fun t ht => heof t ?_) (readCondition_eq_ok hc)
      rw [hrest]
      exact List.mem_cons_of_mem next ht
    · cases h

/-- An assignment shows its targets and behind them its values. -/
theorem mapM_runs_assignment {a : Assignment} (hkind : s.kind = .assignment)
    (heof : ∀ t ∈ s.tokens, t.kind ≠ .eof) (h : Assignment.read s = .ok a) :
    s.runs.mapM Expr.parse = .ok (a.targets ++ a.values) := by
  obtain ⟨before, after, hsplit, htargets, hvalues⟩ := Assignment.read_eq_ok h
  obtain ⟨htokens, -⟩ := Token.eq_append_of_splitTop hsplit
  rw [htokens, List.forall_mem_append, List.forall_mem_cons] at heof
  simp only [runs, hkind, hsplit]
  rw [List.mapM_append, Expr.mapM_parse_of_parseList heof.1 htargets,
    Expr.mapM_parse_of_parseList heof.2.2 hvalues]
  rfl

/-- The runs of a statement, each read alone, give the expressions that the statement was read
for. -/
theorem mapM_runs (hgroup : group ts = .ok statements) (hs : s ∈ statements)
    (heof : ∀ t ∈ s.tokens, t.kind ≠ .eof) {content : Content} (h : s.content = .ok content) :
    s.runs.mapM Expr.parse = .ok content.trees := by
  have heofRest : ∀ t ∈ s.rest, t.kind ≠ .eof := fun t ht => heof t (List.mem_cons_of_mem _ ht)
  cases hkind : s.kind <;> simp only [Statement.content, hkind] at h
  case main | jump =>
    obtain ⟨-, rfl⟩ := Emission.bare_eq_ok h
    simp only [runs, hkind]
    rfl
  case opening | closing =>
    cases h
    simp only [runs, hkind]
    rfl
  case declaration =>
    obtain ⟨d, hd, heq⟩ := bind_eq_ok_iff.1 h
    cases heq
    obtain ⟨-, -, -, hinitializers⟩ := Declaration.read_eq_ok hd
    have hnone : initializers s.tokens = [] := by
      rw [initializers, splitTop_of_declaration hgroup hs hkind]
    have hall : (initializers s.tokens).mapM Expr.parse = .ok d.initializers := by
      rcases lead_of_declaration hgroup hs (.inl hkind) with hlead | hlead <;>
        exact mapM_initializers hlead heofRest hinitializers
    rw [hnone] at hall
    simp only [runs, hkind]
    exact hall
  case initialization =>
    obtain ⟨d, hd, heq⟩ := bind_eq_ok_iff.1 h
    cases heq
    obtain ⟨-, -, -, hinitializers⟩ := Declaration.read_eq_ok hd
    simp only [runs, hkind]
    rcases lead_of_declaration hgroup hs (.inr hkind) with hlead | hlead <;>
      exact mapM_initializers hlead heofRest hinitializers
  case operation =>
    obtain ⟨es, hes, heq⟩ := bind_eq_ok_iff.1 h
    cases heq
    simp only [runs, hkind]
    exact Expr.mapM_parse_of_parseList heof (liftM_malformed_eq_ok_iff.1 hes)
  case assignment =>
    obtain ⟨a, ha, heq⟩ := bind_eq_ok_iff.1 h
    cases heq
    exact mapM_runs_assignment hkind heof ha
  case header => exact mapM_runs_header (lead_of_header hgroup hs hkind) hkind heofRest h
  case alternative => exact mapM_runs_alternative hkind heofRest h
  case bound | step =>
    obtain ⟨c, hc, heq⟩ := bind_eq_ok_iff.1 h
    cases heq
    simp only [runs, hkind]
    exact Expr.mapM_parse_of_parse heof (liftM_malformed_eq_ok_iff.1 hc)
  case result =>
    split at h
    · rename_i hrest
      cases h
      simp only [runs, hkind, hrest]
      rfl
    · obtain ⟨c, hc, heq⟩ := bind_eq_ok_iff.1 h
      cases heq
      simp only [runs, hkind]
      exact Expr.mapM_parse_of_parse heofRest (liftM_malformed_eq_ok_iff.1 hc)

end Statement

namespace Source

variable {source : Source} {tokens : List Token} {statements : List Statement}

/-- The trees under a statement are the expressions that it was read for. -/
theorem trees_of_read (htokens : source.significant = .ok tokens)
    (hstatements : source.statements tokens = .ok statements) {s : Statement} (hs : s ∈ statements)
    {r : Statement.Reading} (hread : s.read = .ok r) : source.trees s = .ok r.content.trees := by
  obtain ⟨content, hcontent, heq⟩ := bind_eq_ok_iff.1 hread
  cases heq
  rw [trees, Statement.mapM_runs (mapError_eq_ok_iff.1 hstatements) hs
    (ne_eof_of_statements htokens hstatements s hs) hcontent]
  rfl

/-- The lines of a statement in the list of statements: the statement, and under it the trees. -/
def block (s : Statement) (trees : List Expr) : String :=
  s.render ++ "\n" ++ String.join (trees.map fun e => "    " ++ e.render ++ "\n")

/-- The list of statements of a source, when the trees of every statement are known. -/
theorem treeDump_of_trees {readings : List Statement.Reading}
    (htokens : source.significant = .ok tokens)
    (hstatements : source.statements tokens = .ok statements)
    (htrees : List.Forall₂ (fun s r => source.trees s = .ok r.content.trees) statements readings) :
    source.treeDump =
      .ok (String.join (List.zipWith block statements (readings.map (·.content.trees)))) := by
  have hblocks : (statements.mapM fun s => do return block s (← source.trees s)) =
      .ok (List.zipWith block statements (readings.map (·.content.trees))) := by
    clear hstatements
    induction htrees with
    | nil => rfl
    | cons hs _ ih =>
      rw [List.mapM_cons, hs, ih]
      rfl
  rw [treeDump, htokens]
  change (source.statements tokens >>= _) = _
  rw [hstatements]
  change ((statements.mapM fun s => do return block s (← source.trees s)) >>= _) = _
  rw [hblocks]
  rfl

/-- A program that compiles is shown as it is compiled: its statements are read, and what was read is
emitted; the list of its statements can be made; and under every statement it shows the expressions
that the statement was read for, in order. -/
theorem treeDump_of_compile {options : Options} {artifact : Artifact}
    (h : source.compile options = .ok artifact) :
    ∃ tokens statements readings e, source.significant = .ok tokens ∧
      source.statements tokens = .ok statements ∧
      List.Forall₂ (fun s r => s.read = .ok r ∧ source.trees s = .ok r.content.trees)
        statements readings ∧
      Emission.runRead options.denyWarnings {} readings = .ok e ∧ artifact.code = e.code options ∧
      source.treeDump =
        .ok (String.join (List.zipWith block statements (readings.map (·.content.trees)))) := by
  obtain ⟨tokens, statements, e, htokens, hstatements, hemission, hcode, -⟩ := eq_of_compile h
  obtain ⟨hrun, -⟩ := eq_of_emission hemission
  obtain ⟨readings, hreadings, hrunRead⟩ := Emission.runRead_of_run hrun
  have hboth : List.Forall₂ (fun s r => s.read = .ok r ∧ source.trees s = .ok r.content.trees)
      statements readings := by
    have hmembers := (List.forall₂_and_left statements readings).2 ⟨fun s hs => hs, hreadings⟩
    refine hmembers.imp fun s r hboth => ⟨hboth.2, ?_⟩
    exact trees_of_read htokens hstatements hboth.1 hboth.2
  exact ⟨tokens, statements, readings, e, htokens, hstatements, hboth, hrunRead, hcode,
    treeDump_of_trees htokens hstatements (hboth.imp fun _ _ h => h.2)⟩

/-- A program with every kind of statement. -/
private def everyKind : Source :=
  ⟨"every", "const n=2;var a,b:i32\nmain\x7bvar c=[1,n];a,b=b,a;a+=n;for var i=0;n;1\x7bif a>b\x7b" ++
    "break\x7delse if b>a\x7ba++,b--\x7delse\x7bprint(c[0],a)\x7d\x7dreturn a+1\x7d"⟩

/-- The program has a statement of every kind. -/
theorem everyKind_treeDump :
    ∃ artifact, everyKind.compile {} = .ok artifact ∧
      ∃ tokens statements readings e, everyKind.significant = .ok tokens ∧
        everyKind.statements tokens = .ok statements ∧
        List.Forall₂ (fun s r => s.read = .ok r ∧ everyKind.trees s = .ok r.content.trees)
          statements readings ∧
        Emission.runRead false {} readings = .ok e ∧ artifact.code = e.code {} ∧
        everyKind.treeDump =
          .ok (String.join (List.zipWith block statements (readings.map (·.content.trees)))) := by
  have hisOk : (everyKind.compile {}).isOk = true := by decide +kernel
  obtain ⟨artifact, hcompile⟩ := exists_eq_ok_of_isOk hisOk
  exact ⟨artifact, hcompile, treeDump_of_compile hcompile⟩

end Source

end Sprout
