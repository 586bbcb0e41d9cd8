import Sprout.Proofs.Lexing.Lexemes
import Sprout.Statement

namespace Sprout

namespace Position

/-- Whether `q` lies at `p` or behind it. -/
def Reaches (p q : Position) : Prop :=
  p.line < q.line ∨ p.line = q.line ∧ p.column ≤ q.column

variable {p q r : Position}

/-- Every place reaches itself. -/
theorem Reaches.refl (p : Position) : p.Reaches p :=
  .inr ⟨rfl, Nat.le_refl _⟩

/-- A place that reaches a second one reaches all that this one does. -/
theorem Reaches.trans (h : p.Reaches q) (h' : q.Reaches r) : p.Reaches r := by
  unfold Reaches at *
  omega

/-- A place reaches the one behind the next character. -/
theorem reaches_next (p : Position) (c : Char) : p.Reaches (p.next c) := by
  unfold next Reaches
  split <;> simp

/-- No place is reached from behind it. -/
theorem not_reaches_of_next (p : Position) (c : Char) : ¬ (p.next c).Reaches p := by
  unfold next Reaches
  split <;> simp

/-- A place reaches the one behind any text. -/
theorem reaches_after (p : Position) (text : List Char) : p.Reaches (p.after text) := by
  induction text generalizing p with
  | nil => exact .refl p
  | cons c text ih => exact (reaches_next p c).trans (ih (p.next c))

/-- The end of a text lies behind its start. -/
theorem not_reaches_of_after {text : List Char} (hne : text ≠ []) :
    ¬ (p.after text).Reaches p := by
  obtain ⟨c, text, rfl⟩ := List.exists_cons_of_ne_nil hne
  intro h
  exact not_reaches_of_next p c ((reaches_after (p.next c) text).trans h)

/-- A text ends as many lines further down as it has line feeds. -/
theorem line_after (p : Position) (text : List Char) :
    (p.after text).line = p.line + text.count '\n' := by
  induction text generalizing p with
  | nil => rfl
  | cons c text ih =>
    rw [after_cons, ih, List.count_cons]
    unfold next
    by_cases hc : c = '\n'
    · simp only [hc, if_true, beq_self_eq_true]
      omega
    · simp [hc]

end Position

namespace Token

/-- Whether a token ends before another one starts. -/
def Before (t t' : Token) : Prop :=
  (t.position.after t.lexeme.toList).Reaches t'.position

/-- The tokens of a text stand one behind the other. -/
theorem before_of_scan {p : Position} {text : List Char} {ts : List Token}
    (h : scan p text = .ok ts) : (∀ t ∈ ts, p.Reaches t.position) ∧ ts.Pairwise Before := by
  have hscanned := Scanned.of_scan h
  clear h
  induction hscanned with
  | nil p => exact ⟨by simpa using .refl p, List.pairwise_singleton _ _⟩
  | @blank p c _ _ _ _ ih =>
    obtain ⟨hreaches, hpairwise⟩ := ih
    exact ⟨fun t ht => (Position.reaches_next p c).trans (hreaches t ht), hpairwise⟩
  | @token p c rest kind more others _ _ _ ih =>
    obtain ⟨hreaches, hpairwise⟩ := ih
    rw [List.forall_mem_cons, List.pairwise_cons]
    refine ⟨⟨.refl p, fun t ht => (Position.reaches_after p _).trans (hreaches t ht)⟩,
      fun t ht => ?_, hpairwise⟩
    simpa [Before] using hreaches t ht

/-- A token is as many lines in front of what follows as its lexeme has line feeds, at least. -/
theorem Before.line {t t' : Token} (h : t.Before t') :
    t.position.line + t.lexeme.toList.count '\n' ≤ t'.position.line := by
  rw [← Position.line_after]
  unfold Before Position.Reaches at h
  omega

/-- Two tokens one before the other stand at two places, if the first is not empty. -/
theorem Before.position_ne {t t' : Token} (h : t.Before t') (hlexeme : t.lexeme ≠ "") :
    t.position ≠ t'.position := by
  intro heq
  unfold Before at h
  rw [← heq] at h
  exact Position.not_reaches_of_after (by simpa using hlexeme) h

/-- The tokens of a run, written down from `p` on with a blank between each two. -/
def spaced (p : Position) : List Token → List Token
  | [] => []
  | t :: ts => { t with position := p } :: spaced (p.after (t.lexeme.toList ++ [' '])) ts

/-- The text of a run, with a blank between each two tokens. -/
def spacedText (ts : List Token) : String :=
  " ".intercalate (ts.map Token.lexeme)

/-- Tokens are written with a blank between each two of them. -/
theorem spacedText_cons_cons (t t' : Token) (ts : List Token) :
    (spacedText (t :: t' :: ts)).toList =
      (t.lexeme.toList ++ [' ']) ++ (spacedText (t' :: ts)).toList := by
  simp [spacedText, String.intercalate_cons_cons]

/-- A run that is written down reads as its tokens. -/
theorem Scans.spaced {p : Position} {ts : List Token} {rest : List Char}
    (hts : ∀ t ∈ ts, t.Standalone) (hrest : Spaced rest) :
    Scans p (spacedText ts).toList rest (spaced p ts) := by
  induction ts generalizing p with
  | nil => exact .nil
  | cons t ts ih =>
    rw [List.forall_mem_cons] at hts
    cases ts with
    | nil => simpa [spacedText, Token.spaced] using hts.1.scans hrest
    | cons t' ts =>
      rw [spacedText_cons_cons]
      have hfront : Scans p (t.lexeme.toList ++ [' ']) ((spacedText (t' :: ts)).toList ++ rest)
          ([{ t with position := p }] ++ []) :=
        (hts.1.scans (.blank rfl)).append (.blank rfl)
      exact hfront.append (ih hts.2)

/-- Whether a token starts on the line where the one in front of it ends. -/
def Follows (t t' : Token) : Prop :=
  t'.position.line = t.position.line + t.lexeme.toList.count '\n'

/-- Tokens that are written with blanks between them follow each other in one line. -/
theorem follows_spaced (p : Position) (ts : List Token) : (spaced p ts).IsChain Follows := by
  induction ts generalizing p with
  | nil => exact .nil
  | cons t ts ih =>
    cases ts with
    | nil => exact .singleton _
    | cons t' ts =>
      refine .cons_cons ?_ (ih _)
      simp [Follows, Position.line_after]

/-- The last token of a run that is written down ends where its text ends. -/
theorem line_of_getLast?_spaced {p : Position} {ts : List Token} {t : Token}
    (h : (spaced p ts).getLast? = some t) :
    t.position.line + t.lexeme.toList.count '\n' = (p.after (spacedText ts).toList).line := by
  induction ts generalizing p with
  | nil => cases h
  | cons t' ts ih =>
    cases ts with
    | nil =>
      have hlast : t = { t' with position := p } := by simpa [spaced] using h.symm
      simp [hlast, spacedText, Position.line_after]
    | cons t'' ts =>
      rw [spaced, spaced, List.getLast?_cons_cons, ← spaced] at h
      rw [spacedText_cons_cons, Position.after_append]
      exact ih h

end Token

namespace Statement

/-- Whether a statement goes on with the loop header in front of it. -/
def isClause (s : Statement) : Bool :=
  s.kind = .bound || s.kind = .step

/-- What is written between a statement and the one behind it. -/
def separator (next : Option Statement) : String :=
  if next.any isClause then " ; " else "\n"

/-- Statements as a text, one a line; the clauses of a loop header stand in the line of the
header. -/
def canonical : List Statement → String
  | [] => ""
  | s :: rest => s.text ++ separator rest.head? ++ canonical rest

/-- The statement as it is written down from `p` on. -/
def place (p : Position) (s : Statement) : Statement :=
  ⟨s.kind, { s.lead with position := p },
    Token.spaced (p.after (s.lead.lexeme.toList ++ [' '])) s.rest⟩

/-- A statement that is placed has its tokens written with blanks between them. -/
theorem tokens_place (p : Position) (s : Statement) :
    (s.place p).tokens = Token.spaced p s.tokens := rfl

/-- Where the next statement starts, if this one is written down from `p` on. -/
def behind (p : Position) (s : Statement) (next : Option Statement) : Position :=
  p.after (s.text ++ separator next).toList

/-- The statements as they are written down from `p` on. -/
def placed (p : Position) : List Statement → List Statement
  | [] => []
  | s :: rest => s.place p :: placed (s.behind p rest.head?) rest

/-- The semicolon between a statement that ends at `p` and a clause behind it. -/
def mark (p : Position) (next : Option Statement) : List Token :=
  if next.any isClause then [⟨.semicolon, ";", p.next ' '⟩] else []

/-- The tokens of the statements as they are written down from `p` on. -/
def laid (p : Position) : List Statement → List Token
  | [] => []
  | s :: rest =>
    (s.place p).tokens ++ mark (p.after s.text.toList) rest.head? ++
      laid (s.behind p rest.head?) rest

/-- What stands between two statements is a line feed, which holds no token, or a semicolon in front
of a clause. -/
theorem scans_separator (p : Position) (next : Option Statement) (rest : List Char) :
    Token.Scans p (separator next).toList rest (mark p next) := by
  unfold separator mark
  split
  · have hfront : Token.Scans p [' '] ([';', ' '] ++ rest) [] := .blank rfl
    have hsemicolon : Token.Scans (p.next ' ') [';'] ([' '] ++ rest)
        [⟨.semicolon, ";", p.next ' '⟩] := .token rfl rfl
    have hblank : Token.Scans ((p.next ' ').after [';']) [' '] rest [] := .blank rfl
    exact hfront.append (hsemicolon.append hblank)
  · exact .blank rfl

/-- Statements that are written down read as their tokens. -/
theorem scans_canonical {p : Position} {statements : List Statement}
    (h : ∀ s ∈ statements, ∀ t ∈ s.tokens, t.Standalone) :
    Token.Scans p (canonical statements).toList [] (laid p statements) := by
  induction statements generalizing p with
  | nil => exact .nil
  | cons s rest ih =>
    rw [List.forall_mem_cons] at h
    have hspaced : Token.Spaced
        ((separator rest.head?).toList ++ ((canonical rest).toList ++ [])) := by
      unfold separator
      split <;> exact .blank rfl
    have htokens : Token.Scans p s.text.toList _ (s.place p).tokens := .spaced h.1 hspaced
    have hmark := scans_separator (p.after s.text.toList) rest.head? ((canonical rest).toList ++ [])
    have hfront := htokens.append hmark
    rw [← String.toList_append] at hfront
    have hall := hfront.append (ih h.2)
    rwa [← String.toList_append] at hall

/-- Whether a statement stands behind another one: in the line in which that ends if it is a clause,
and in a later line if it is not. -/
def Behind (s s' : Statement) : Prop :=
  ∀ t ∈ s.tokens.getLast?,
    if s'.isClause then t.Follows s'.lead else t.position.line < s'.lead.position.line

/-- Every statement that is placed stands behind the one before it: a clause in the same line, and
anything else on a line below. -/
theorem behind_placed (p : Position) (statements : List Statement) :
    (placed p statements).IsChain Behind := by
  induction statements generalizing p with
  | nil => exact .nil
  | cons s rest ih =>
    cases rest with
    | nil => exact .singleton _
    | cons s' rest =>
      refine .cons_cons (fun t ht => ?_) (ih _)
      rw [tokens_place, Option.mem_def] at ht
      have hends : t.position.line + t.lexeme.toList.count '\n' = (p.after s.text.toList).line :=
        Token.line_of_getLast?_spaced ht
      have hstart : (s.behind p (some s')).line =
          (p.after s.text.toList).line + (separator (some s')).toList.count '\n' := by
        rw [behind, String.toList_append, Position.after_append, Position.line_after]
      change if s'.isClause then (s.behind p (some s')).line = _ else _ < (s.behind p (some s')).line
      by_cases hclause : s'.isClause = true
      · have hnone : (separator (some s')).toList.count '\n' = 0 := by simp [separator, hclause]
        rw [if_pos hclause, hstart, hends, hnone, Nat.add_zero]
      · have hone : (separator (some s')).toList.count '\n' = 1 := by simp [separator, hclause]
        rw [if_neg hclause, hstart]
        omega

/-- The tokens of a statement that is placed follow each other in one line, with a blank between
each two of them. -/
theorem follows_of_mem_placed (p : Position) (statements : List Statement) :
    ∀ s ∈ placed p statements, s.tokens.IsChain Token.Follows := by
  induction statements generalizing p with
  | nil => simp [placed]
  | cons s rest ih =>
    rw [placed, List.forall_mem_cons]
    exact ⟨Token.follows_spaced p s.tokens, ih _⟩

/-- Placing statements changes no kinds. -/
theorem isClause_head?_placed (p : Position) (statements : List Statement) :
    (placed p statements).head?.any isClause = statements.head?.any isClause := by
  cases statements <;> rfl

end Statement

end Sprout
