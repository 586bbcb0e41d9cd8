import Sprout.Compile
import Sprout.Proofs.Lexing.Cuts
import Sprout.Proofs.Lexing.Layout

namespace Sprout

/-- Whether a character of the text that starts at `p` stands at `q`. -/
def Position.Within (p : Position) (text : List Char) (q : Position) : Prop :=
  p.Reaches q ∧ ¬ (p.after text).Reaches q

instance (p q : Position) : Decidable (p.Reaches q) :=
  inferInstanceAs (Decidable (p.line < q.line ∨ p.line = q.line ∧ p.column ≤ q.column))

instance (p : Position) (text : List Char) (q : Position) : Decidable (p.Within text q) :=
  inferInstanceAs (Decidable (p.Reaches q ∧ ¬ (p.after text).Reaches q))

/-- A text covers the place where it starts, if it has a character. -/
theorem Position.within_cons (p : Position) (c : Char) (text : List Char) :
    p.Within (c :: text) p :=
  ⟨.refl p, not_reaches_of_after (by simp)⟩

/-- What the rest of a text covers, the whole text covers. -/
theorem Position.Within.cons {p q : Position} {c : Char} {text : List Char}
    (h : (p.next c).Within text q) : p.Within (c :: text) q :=
  ⟨(reaches_next p c).trans h.1, h.2⟩

namespace Token

/-- Whether one of the comments of a list of tokens has a character at `q`. -/
def hidden (ts : List Token) (q : Position) : Bool :=
  ts.any fun t => t.kind = .comment && t.position.Within t.lexeme.toList q

/-- What a character of a comment gives way to: a blank, if it does not end a line. -/
def blankFor (c : Char) : Char :=
  if c = '\n' then '\n' else ' '

/-- The text that starts at `p`, with the comments of a list of tokens blanked. -/
def blanked (ts : List Token) (p : Position) : List Char → List Char
  | [] => []
  | c :: text => (if hidden ts p then blankFor c else c) :: blanked ts (p.next c) text

section Blanked

variable {p : Position} {c : Char} {text : List Char} {t : Token} {ts ts' : List Token}

/-- What a text is blanked to depends on the places that it covers. -/
theorem blanked_congr (h : ∀ q, p.Within text q → hidden ts q = hidden ts' q) :
    blanked ts p text = blanked ts' p text := by
  induction text generalizing p with
  | nil => rfl
  | cons c text ih =>
    rw [blanked, blanked, h p (p.within_cons c text), ih fun q hq => h q (.cons hq)]

/-- A text is blanked piece by piece. -/
theorem blanked_append (ts : List Token) (p : Position) (front text : List Char) :
    blanked ts p (front ++ text) = blanked ts p front ++ blanked ts (p.after front) text := by
  induction front generalizing p with
  | nil => rfl
  | cons c front ih => rw [List.cons_append, blanked, blanked, ih, List.cons_append,
      Position.after_cons]

/-- Where there are no comments, a text stays as it is. -/
theorem blanked_of_shown (h : ∀ q, p.Within text q → hidden ts q = false) :
    blanked ts p text = text := by
  induction text generalizing p with
  | nil => rfl
  | cons c text ih =>
    rw [blanked, h p (p.within_cons c text), ih fun q hq => h q (.cons hq)]
    rfl

/-- A text inside a comment is blanked character by character. -/
theorem blanked_of_hidden (h : ∀ q, p.Within text q → hidden ts q = true) :
    blanked ts p text = text.map blankFor := by
  induction text generalizing p with
  | nil => rfl
  | cons c text ih =>
    rw [blanked, h p (p.within_cons c text), ih fun q hq => h q (.cons hq)]
    rfl

/-- No token has a character in front of where its text starts. -/
theorem hidden_eq_false (h : scan p text = .ok ts) {q : Position} (hq : ¬ p.Reaches q) :
    hidden ts q = false := by
  rw [hidden, List.any_eq_false]
  intro t ht hcovers
  have hwithin : t.position.Within t.lexeme.toList q := by
    simpa using (Bool.and_eq_true_iff.1 hcovers).2
  exact hq (((before_of_scan h).1 t ht).trans hwithin.1)

/-- Behind a token, only the comments among the tokens behind it are blanked. -/
theorem hidden_cons_of_behind {q : Position} (hq : (t.position.after t.lexeme.toList).Reaches q) :
    hidden (t :: ts) q = hidden ts q := by
  have hnot : ¬ t.position.Within t.lexeme.toList q := fun hwithin => hwithin.2 hq
  simp [hidden, hnot]

/-- Within a token, characters are blanked if it is a comment. -/
theorem hidden_cons_of_within {q : Position} (hq : t.position.Within t.lexeme.toList q)
    (h : scan (t.position.after t.lexeme.toList) text = .ok ts) :
    hidden (t :: ts) q = decide (t.kind = .comment) := by
  have hothers := hidden_eq_false h hq.2
  rw [hidden] at hothers ⊢
  simp [hothers, hq]

/-- The text of a token goes on with the text behind it, a comment blanked and any other token as it
is. -/
theorem blanked_token (h : scan (t.position.after t.lexeme.toList) text = .ok ts) :
    blanked (t :: ts) t.position (t.lexeme.toList ++ text) =
      (if t.kind = .comment then t.lexeme.toList.map blankFor else t.lexeme.toList) ++
        blanked ts (t.position.after t.lexeme.toList) text := by
  have hbehind : blanked (t :: ts) (t.position.after t.lexeme.toList) text =
      blanked ts (t.position.after t.lexeme.toList) text :=
    blanked_congr fun q hq => hidden_cons_of_behind hq.1
  rw [blanked_append, hbehind]
  split
  · rename_i hcomment
    rw [blanked_of_hidden fun q hq => by simp [hidden_cons_of_within hq h, hcomment]]
  · rename_i hcomment
    rw [blanked_of_shown fun q hq => by simp [hidden_cons_of_within hq h, hcomment]]

/-- A blank takes the place of a character and leaves the places behind it as they are. A line feed
gives way to none. -/
theorem next_blankFor (p : Position) (c : Char) : p.next (blankFor c) = p.next c := by
  unfold blankFor
  by_cases hc : c = '\n' <;> simp [hc, Position.next]

/-- What a character gives way to is a blank. -/
theorem isBlank_blankFor (c : Char) : isBlank (blankFor c) = true := by
  unfold blankFor
  split <;> rfl

/-- Blanks take as many lines and columns as what they stand for. -/
theorem after_blankFor (p : Position) (text : List Char) :
    p.after (text.map blankFor) = p.after text := by
  induction text generalizing p with
  | nil => rfl
  | cons c text ih =>
    rw [List.map_cons, Position.after_cons, Position.after_cons, next_blankFor, ih]

/-- Blanks hold no tokens. -/
theorem Scans.blanks {rest : List Char} : Scans p (text.map blankFor) rest [] := by
  induction text generalizing p with
  | nil => exact .nil
  | cons c text ih => exact (Scans.blank (isBlank_blankFor c)).append ih

/-- A text whose comments are blanked reads as its other tokens. What is read in front of a comment
does not notice, as the comment and the blank in its place start with a character that ends it. -/
theorem scan_blanked (h : scan p text = .ok ts) :
    Fork text (blanked ts p text) ∧
      scan p (blanked ts p text) = .ok (ts.filter (·.kind ≠ .comment)) := by
  have hscanned := Scanned.of_scan h
  clear h
  induction hscanned with
  | nil p => exact ⟨.inl rfl, by simp [blanked, scan]⟩
  | @blank p c rest ts hblank hrest ih =>
    obtain ⟨hfork, hscan⟩ := ih
    have hshown : hidden ts p = false :=
      hidden_eq_false hrest.scan_eq (Position.not_reaches_of_next p c)
    have htext : blanked ts p (c :: rest) = c :: blanked ts (p.next c) rest := by
      rw [blanked, hshown]
      rfl
    rw [htext, scan, if_pos hblank]
    exact ⟨hfork.append [c], hscan⟩
  | @token p c rest kind more others hblank hfront hothers ih =>
    obtain ⟨hfork, hscan⟩ := ih
    generalize hlexeme : c :: rest.take more = lexeme at hothers hfork hscan ⊢
    have htext : c :: rest = lexeme ++ rest.drop more := by
      rw [← hlexeme, List.cons_append, List.take_append_drop]
    obtain ⟨tail, htail⟩ : ∃ tail, blanked others (p.after lexeme) (rest.drop more) = tail :=
      ⟨_, rfl⟩
    rw [htail] at hfork hscan
    have hothers' : scan (p.after (String.ofList lexeme).toList) (rest.drop more) = .ok others := by
      rw [String.toList_ofList, hothers.scan_eq]
    have htoken := blanked_token (t := ⟨kind, String.ofList lexeme, p⟩) hothers'
    simp only [String.toList_ofList, ← htext, htail] at htoken
    rw [htoken]
    -- A comment gives way to blanks, and any other token is read again in front of the blanked
    -- rest.
    by_cases hcomment : kind = .comment
    · subst hcomment
      have hslash := slash_of_front hfront
      have hblanks : Scans p (lexeme.map blankFor) tail [] := .blanks
      rw [Scans, after_blankFor, hscan] at hblanks
      rw [if_pos rfl, hblanks]
      refine ⟨?_, by simp [Except.map]⟩
      rw [← hlexeme, List.map_cons, hslash]
      exact .start _ _
    · have hlength : (rest.take more).length = more :=
        List.length_take_of_le (le_length_of_front hfront hcomment)
      have hagain : front c (rest.take more ++ tail) = .ok (kind, (rest.take more).length) := by
        refine front_fork ?_ hcomment hfork
        rw [List.take_append_drop, hlength, hfront]
      have hsame : Scans p lexeme tail [⟨kind, String.ofList lexeme, p⟩] := by
        rw [← hlexeme]
        exact .token hblank hagain
      rw [Scans, hscan] at hsame
      rw [if_neg hcomment, hsame, htext]
      exact ⟨hfork.append lexeme, by simp [Except.map, hcomment]⟩

end Blanked

end Token

/-- The error, reported about another source. -/
def CompileError.about (source : Source) : CompileError → CompileError
  | unreadable failure => unreadable failure
  | lexical _ defect => lexical source defect
  | malformed _ defect => malformed source defect
  | semantic _ fault position statement => semantic source fault position statement

namespace Source

variable {source : Source}

/-- The source with the comments of its tokens blanked. -/
def blanked (source : Source) (ts : List Token) : Source :=
  { source with text := String.ofList (Token.blanked ts .start source.text.toList) }

/-- Statements of the same tokens are the same whatever source they are from. An error names its
source. -/
theorem statements_about (source source' : Source) (tokens : List Token) :
    source'.statements tokens = (source.statements tokens).mapError (.about source') := by
  unfold statements
  cases Statement.group tokens <;> rfl

/-- Statements are emitted alike whatever source they are from. An error names its source. -/
theorem emission_about (source source' : Source) (deny : Bool) (statements : List Statement) :
    source'.emission deny statements =
      (source.emission deny statements).mapError (.about source') := by
  unfold emission
  cases Emission.run deny {} statements with
  | error failed =>
    obtain ⟨_ | _, s⟩ := failed <;> rfl
  | ok e =>
    simp only [Except.mapError, bind, Except.bind]
    cases e.unfinished? <;> rfl

/-- What a source compiles to depends on its name and on the tokens that take part in it. -/
theorem compile_about (source source' : Source) {tokens : List Token}
    (hname : source'.name = source.name) (h : source.significant = .ok tokens)
    (h' : source'.significant = .ok tokens) (options : Options) :
    source'.compile options = (source.compile options).mapError (.about source') := by
  unfold compile
  rw [h, h']
  simp only [bind, Except.bind, statements_about source source']
  cases source.statements tokens with
  | error failed => rfl
  | ok statements =>
    simp only [Except.mapError, emission_about source source']
    cases source.emission options.denyWarnings statements with
    | error failed => rfl
    | ok e =>
      simp only [hname]
      rfl

variable {ts : List Token}

/-- A text without its comments has the other tokens, at their old places. -/
theorem tokens_blanked (h : source.tokens = .ok ts) :
    (source.blanked ts).tokens = .ok (ts.filter (·.kind ≠ .comment)) := by
  rw [tokens, blanked, String.toList_ofList]
  exact (Token.scan_blanked h).2

/-- A program without its comments compiles to the same code with the same diagnostics, or fails
with the same error. The error shows the text without comments. -/
theorem compile_blanked (h : source.tokens = .ok ts) (options : Options) :
    (source.blanked ts).compile options =
      (source.compile options).mapError (.about (source.blanked ts)) := by
  have hsignificant : source.significant = .ok (ts.filter Token.isSignificant) := by
    rw [significant, h]
  have hblanked : (source.blanked ts).significant = .ok (ts.filter Token.isSignificant) := by
    rw [significant, tokens_blanked h]
    simp only [List.filter_filter]
    congr 2
    funext t
    unfold Token.isSignificant
    grind
  exact compile_about source (source.blanked ts) rfl hsignificant hblanked options

/-- Comments are transparent. With its comments blanked, a source reads as its other tokens, where they
were. So it is accepted just if the source is, with the same code and diagnostics, and refused for the
same cause at the same place. -/
theorem comments_transparent (h : source.tokens = .ok ts) :
    (source.blanked ts).tokens = .ok (ts.filter (·.kind ≠ .comment)) ∧
      ∀ options, (∀ artifact, (source.blanked ts).compile options = .ok artifact ↔
          source.compile options = .ok artifact) ∧
        ∀ error, source.compile options = .error error →
          (source.blanked ts).compile options = .error (error.about (source.blanked ts)) := by
  refine ⟨tokens_blanked h, fun options => ⟨fun artifact => ?_, fun error herror => ?_⟩⟩
  · rw [compile_blanked h, mapError_eq_ok_iff]
  · rw [compile_blanked h, herror]
    rfl

/-- Comments of both kinds: between tokens that touch them, over two lines, behind a slash, and with
characters of several bytes. -/
private def halved : Source :=
  ⟨"halved", "main \x7b\nvar x/**/= /*é\nü*/6/ /*→*/2// 3\n\x7d\n"⟩

/-- The division is no comment, and the comment over two lines leaves its line feed. -/
theorem halved_comments_transparent :
    ∃ ts, halved.tokens = .ok ts ∧ (halved.compile {}).isOk = true ∧
      (halved.blanked ts).text = "main \x7b\nvar x    =    \n   6/      2    \n\x7d\n" ∧
      (halved.blanked ts).tokens = .ok (ts.filter (·.kind ≠ .comment)) ∧
      ∀ options, (∀ artifact, (halved.blanked ts).compile options = .ok artifact ↔
          halved.compile options = .ok artifact) ∧
        ∀ error, halved.compile options = .error error →
          (halved.blanked ts).compile options = .error (error.about (halved.blanked ts)) := by
  have hseen : halved.tokens.toOption.map (fun ts => (halved.blanked ts).text) =
      some "main \x7b\nvar x    =    \n   6/      2    \n\x7d\n" := by
    decide +kernel
  have haccepted : (halved.compile {}).isOk = true := by decide +kernel
  obtain ⟨ts, htokens, htext⟩ := Option.map_eq_some_iff.1 hseen
  have hscan := eq_ok_of_toOption htokens
  exact ⟨ts, hscan, haccepted, htext, comments_transparent hscan⟩

end Source

end Sprout
