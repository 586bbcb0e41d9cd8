import Sprout.Proofs.Blocks.Nesting

namespace Sprout

namespace Token

/-- A keyword is written as its word. -/
theorem Standalone.lexeme_of_keyword {t : Token} {word : Keyword} (h : t.Standalone)
    (hkind : t.kind = .keyword word) :
    t.lexeme = word.word := by
  obtain ⟨c, more, hlexeme, -, hfront⟩ := h
  have hkeyword := hfront [] .nil
  rw [List.append_nil, hkind] at hkeyword
  have hword := (word_of_front rfl hkeyword).2.2
  rw [List.take_length, ← hlexeme, wordKind] at hword
  split at hword
  · rename_i found hfound
    cases hword
    have hsame : word.word = t.lexeme := by simpa using List.find?_some hfound
    exact hsame.symm
  · split at hword
    · cases hword
    · split at hword <;> cases hword

end Token

/-- The tokens of a statement are written as those of a source are. -/
structure Statement.Written (s : Statement) : Prop where
  named : Token.Named s.tokens
  compound : ∀ t ∈ s.tokens, ∀ op, t.kind = .compound op → t.lexeme = op.symbol ++ "="
  jump : s.kind = .jump → s.lead.lexeme = "break" ∨ s.lead.lexeme = "continue"

/-- The statements of a source are written with tokens of its text, whose names and numbers are
spelled as the scanner asks. -/
theorem Source.written_of_statements {source : Source} {tokens : List Token}
    {statements : List Statement} (htokens : source.significant = .ok tokens)
    (hstatements : source.statements tokens = .ok statements) : ∀ s ∈ statements, s.Written := by
  intro s hs
  obtain ⟨all, hall, -, hmem⟩ := mem_of_statements htokens hstatements
  have hstandalone := Token.standalone_of_mem_scan hall
  refine ⟨named_of_statements htokens hstatements s hs, fun t ht op hop => ?_, fun hkind => ?_⟩
  · exact (hstandalone t (hmem s hs t ht) (by simp [hop]) (by simp [hop])
      (by simp [hop])).lexeme_of_compound hop
  · have hlead := hmem s hs s.lead (List.mem_cons_self ..)
    refine (Statement.lead_of_jump (mapError_eq_ok_iff.1 hstatements) hs hkind).imp ?_ ?_ <;>
      exact fun hword => (hstandalone _ hlead (by simp [hword]) (by simp [hword])
        (by simp [hword])).lexeme_of_keyword hword

open Target Code

/-- The parts of a `for` header stand on one line. -/
structure LoopHeader.IsOneLine (header : LoopHeader) : Prop where
  type : isOneLine header.type = true
  name : isOneLine header.name = true
  start : isOneLine header.start = true
  bound : ∀ text, header.bound = some text → isOneLine text = true
  step : ∀ text, header.step = some text → isOneLine text = true

/-- The latest line is the brace that closed the block of an `if`. -/
def EndsBranch (lines : List Line) : Prop :=
  ∃ depth earlier branch outer, lines = ⟨depth, "\x7d"⟩ :: earlier ∧
    blocksBehind earlier = branch :: outer ∧ Opens .branch branch

/-- How a header that waits for its brace will fit behind lines. -/
def Header.Fits (lines : List Line) : Header → Prop
  | .main => True
  | .block kind text false => OpensFresh kind (text ++ "\x7b") ∧ isOneLine (text ++ "\x7b") = true
  | .block kind text true =>
    EndsBranch lines ∧ OpensElse kind (text ++ "\x7b") ∧ isOneLine (text ++ "\x7b") = true
  | .loop header => header.IsOneLine

namespace Emission

variable {scopes : Scopes} {e : Expr} {header : LoopHeader} {run : List Token} {lines : List Line}

/-- What is typed from well-spelled parts has a text of one line. -/
theorem isOneLine_of_value {typed : Typed} (hspelled : e.WellSpelled)
    (h : (e.value scopes).outcome = .ok typed) : isOneLine typed.text = true :=
  (isSolid_iff.1 (Expr.isSolid_of_value hspelled h)).2

/-- A conversion puts its own text around a value, and no line feed. -/
theorem isOneLine_of_converted {start : Typed} {type : Ty} {p : Position} {text : String}
    (hspelled : e.WellSpelled) (hstart : (e.value scopes).outcome = .ok start)
    (h : (start.converted type p).outcome = .ok text) : isOneLine text = true :=
  (isSolid_iff.1 (Typed.isSolid_converted (Expr.isSolid_of_value hspelled hstart) h)).2

/-- A condition has a text of one line. -/
theorem isOneLine_condition {keyword : Token} {text : String} (hnamed : Token.Named run)
    (h : (condition scopes keyword run).outcome = .ok text) : isOneLine text = true := by
  simp only [condition, Checked.outcome_bind_eq_ok_iff, outcome_monadLift_malformed,
    outcome_monadLift_check] at h
  obtain ⟨run', hrun, e, hparse, typed, htyped, h⟩ := h
  rw [require_eq_ok hrun] at hparse
  split at h
  · cases h
    exact isOneLine_of_value (Expr.wellSpelled_of_parse hparse hnamed) htyped
  · simp at h

/-- The loop variable is spelled as a name. -/
theorem isName_of_declaredName? {declaration : List Token} {name : Token}
    (hnamed : Token.Named declaration) (h : declaredName? declaration = some name) :
    Token.IsName name.lexeme := by
  obtain ⟨hidentifier, others, rfl⟩ := declaredName?_eq_some h
  exact hnamed name List.mem_cons_self hidentifier

/-- A header that declares its variable has parts of one line each. -/
theorem isOneLine_declaringHeader {keyword : Token} {declaration : List Token} {start : Typed}
    (hnamed : Token.Named declaration) (hspelled : e.WellSpelled)
    (hstart : (e.value scopes).outcome = .ok start)
    (h : (declaringHeader scopes keyword declaration e start).outcome = .ok header) :
    header.IsOneLine := by
  obtain ⟨name, type, text, hname, -, -, htext, rfl⟩ := eq_of_declaringHeader h
  have hown := isName_of_declaredName? hnamed hname
  exact ⟨(isSolid_iff.1 (isSolid_type type)).2, (isSolid_iff.1 (isSolid_name hown)).2,
    isOneLine_of_converted hspelled hstart htext, by simp, by simp⟩

/-- A header that reuses a variable has parts of one line each. -/
theorem isOneLine_reusingHeader {target : List Token} {start : Typed}
    (hnamed : Token.Named target) (hspelled : e.WellSpelled)
    (hstart : (e.value scopes).outcome = .ok start)
    (h : (reusingHeader scopes target e start).outcome = .ok header) : header.IsOneLine := by
  obtain ⟨named, typed, text, hparse, htyped, -, -, htext, rfl⟩ := eq_of_reusingHeader h
  exact ⟨rfl, isOneLine_of_value (Expr.wellSpelled_of_parse hparse hnamed) htyped,
    isOneLine_of_converted hspelled hstart htext, by simp, by simp⟩

/-- A `for` header has parts of one line each, so its brace makes one line of them. -/
theorem isOneLine_loopHeader {keyword : Token} (hnamed : Token.Named run)
    (h : (loopHeader scopes keyword run).outcome = .ok header) : header.IsOneLine := by
  obtain ⟨target, equal, initial, e, start, hsplit, hparse, hstart, hcases⟩ := loopHeader_cases h
  obtain ⟨rfl, -⟩ := Token.eq_append_of_splitTop hsplit
  have hspelled := Expr.wellSpelled_of_parse hparse hnamed.right
  rcases hcases with ⟨first, declaration, rfl, -, -, hdeclaring⟩ | ⟨-, hreusing⟩
  · exact isOneLine_declaringHeader (fun t ht => hnamed.left t (List.mem_cons_of_mem _ ht)) hspelled
      hstart hdeclaring
  · exact isOneLine_reusingHeader hnamed.left hspelled hstart hreusing

/-- A header is written in front of its brace in one piece or in two. -/
theorem append_brace (text : String) : text ++ ") " ++ "\x7b" = text ++ ") \x7b" := by
  rw [String.append_assoc]
  rfl

/-- The text of a condition makes a header with its brace. -/
theorem fits_conditional {kind : Scope.Kind} {word text : String}
    (hword : isOneLine word = true) (htext : isOneLine text = true)
    (hopens : ∀ condition, OpensFresh kind (word ++ condition ++ ") \x7b")) :
    (Header.block kind (word ++ text ++ ") ") false).Fits lines := by
  refine ⟨append_brace _ ▸ hopens text, ?_⟩
  simp only [isOneLine_append, hword, htext]
  rfl

/-- A header that a statement starts fits wherever it stands: with its brace it is a line that opens
a block, whatever its condition and its clauses are. -/
theorem fits_headerOf {s : Statement} {waiting : Header} (hnamed : Token.Named s.tokens)
    (h : (headerOf scopes s).outcome = .ok waiting) : waiting.Fits lines := by
  have hrest : Token.Named s.rest := fun t ht => hnamed t (List.mem_cons_of_mem _ ht)
  rcases headerOf_cases h with
    ⟨-, text, htext, rfl⟩ | ⟨-, text, htext, rfl⟩ | ⟨-, -, loop, hloop, rfl⟩
  · exact fits_conditional rfl (isOneLine_condition hrest htext) .branch
  · exact fits_conditional rfl (isOneLine_condition hrest htext) .whileLoop
  · exact isOneLine_loopHeader hrest hloop

/-- The header of an `else` fits behind the block of an `if`. -/
theorem fits_alternativeOf {s : Statement} {waiting : Header} (hnamed : Token.Named s.tokens)
    (hends : EndsBranch lines) (h : (alternativeOf scopes s).outcome = .ok waiting) :
    waiting.Fits lines := by
  obtain ⟨-, rfl⟩ | ⟨next, run, text, hrest, -, htext, rfl⟩ := alternativeOf_cases h
  · exact ⟨hends, .alternative, rfl⟩
  · have hline := isOneLine_condition
      (fun t ht => hnamed t (by simp [Statement.tokens, hrest, ht])) htext
    refine ⟨hends, append_brace _ ▸ .branch text, ?_⟩
    simp only [isOneLine_append, hline]
    rfl

end Emission

end Sprout
