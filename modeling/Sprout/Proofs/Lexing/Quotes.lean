import Sprout.Proofs.Lexing
import Sprout.Proofs.Parsing.Completeness

namespace Sprout

namespace Token

/-- `Writes text body`: between quotes, `body` is a way to write `text`. Each character may stand
for itself or behind a backslash, and some are written by a letter behind one. -/
inductive Writes : List Char → List Char → Prop
  | nil : Writes [] []
  /-- A character that is no quote and no backslash may stand for itself. -/
  | plain {c text body} (hquote : c ≠ '"') (hback : c ≠ '\\') (h : Writes text body) :
      Writes (c :: text) (c :: body)
  /-- Some characters have a letter, or a digit, that stands for them behind a backslash. -/
  | named {c letter text body}
      (hletter : (letter, c) ∈ [('n', '\n'), ('t', '\t'), ('r', '\r'), ('0', '\x00')])
      (h : Writes text body) : Writes (c :: text) ('\\' :: letter :: body)
  /-- Any other character stands for itself behind a backslash. -/
  | escaped {c text body} (hletter : c ∉ ['n', 't', 'r', '0']) (h : Writes text body) :
      Writes (c :: text) ('\\' :: c :: body)

variable {text body more : List Char} {p : Position}

/-- The first quote that no backslash takes along is the one behind the text. -/
theorem Writes.quotedLength (h : Writes text body) :
    quotedLength '"' (body ++ '"' :: more) = some (body.length + 1) := by
  induction h with
  | nil => simp [Token.quotedLength]
  | @plain c _ body hquote hback _ ih =>
    rw [List.cons_append, Token.quotedLength, if_neg hquote, ih]
    · rfl
    · exact hback
  | named _ _ ih | escaped _ _ ih =>
    rw [List.cons_append, List.cons_append, Token.quotedLength, ih]
    rfl

/-- The characters behind the backslashes stand for the text. -/
theorem Writes.unescape (h : Writes text body) : Expr.unescape body = text := by
  induction h with
  | nil => rfl
  | @plain c _ body _ hback _ ih =>
    rw [Expr.unescape, ih]
    exact hback
  | @named c letter _ _ hletter _ ih =>
    have hescaped : Expr.escaped letter = c := by
      simp only [List.mem_cons, Prod.mk.injEq, List.not_mem_nil, or_false] at hletter
      rcases hletter with ⟨rfl, rfl⟩ | ⟨rfl, rfl⟩ | ⟨rfl, rfl⟩ | ⟨rfl, rfl⟩ <;> rfl
    rw [Expr.unescape, ih, hescaped]
  | @escaped c _ _ hletter _ ih =>
    have hescaped : Expr.escaped c = c := by
      simp only [List.mem_cons, List.not_mem_nil, or_false, not_or] at hletter
      simp [Expr.escaped, hletter]
    rw [Expr.unescape, ih, hescaped]

/-- A written string between quotes is one token, whatever stands behind it. -/
theorem Writes.scans (h : Writes text body) :
    Scans p ('"' :: (body ++ ['"'])) more
      [⟨.string, String.ofList ('"' :: (body ++ ['"'])), p⟩] := by
  refine .token rfl ?_
  simp [front, isNameStart, quoted, h.quotedLength]

end Token

/-- The string literal with a body, at the start of a text. -/
def Token.literal (body : String) : Token :=
  ⟨.string, "\"" ++ body ++ "\"", .start⟩

/-- However a string is written between quotes, and whatever stands behind them, the literal is read as
one token, and what stands behind it as if it stood alone. The token denotes the string. -/
theorem Source.tokens_written {text body : String} (h : Token.Writes text.toList body.toList)
    (name more : String) :
    (Source.mk name ((Token.literal body).lexeme ++ more)).tokens =
        (Token.scan (Position.start.after (Token.literal body).lexeme.toList) more.toList).map
          (Token.literal body :: ·) ∧
      Expr.parse [Token.literal body] = .ok (.literal (.str text) .start) := by
  have hlexeme : (Token.literal body).lexeme.toList = '"' :: (body.toList ++ ['"']) := by
    simp [Token.literal]
  constructor
  · have hscans : Token.Scans .start (Token.literal body).lexeme.toList more.toList
        [Token.literal body] := by
      have hwritten : Token.literal body =
          ⟨.string, String.ofList ('"' :: (body.toList ++ ['"'])), .start⟩ := by
        rw [← hlexeme, String.ofList_toList]
        rfl
      rw [hlexeme, hwritten]
      exact h.scans
    rw [Source.tokens, String.toList_append]
    exact hscans
  · have hdenotes : String.ofList (Expr.unescape (Expr.unquote (Token.literal body).lexeme.toList)) =
        text := by
      rw [hlexeme, Expr.unquote, List.drop_one, List.tail_cons, List.dropLast_concat, h.unescape,
        String.ofList_toList]
    have hderives : Expr.Derives (.tier 0 (.literal (.str text) .start)) 1
        (Expr.body [Token.literal body]) := by
      have hstring := Expr.Derives.string (t := Token.literal body) rfl
      rw [hdenotes] at hstring
      exact .loosen (Nat.zero_le _) (.unary (.stepped (.primary hstring)))
    exact hderives.parse.1 (by decide)

/-- A string with a quote, a backslash and two line feeds, of which one is written as itself, in front
of a quote that is not closed. -/
theorem mixedEscapes_written :
    Token.Writes "\"\\\n\n".toList "\\\"\\\\\\n\n".toList ∧
      (Source.mk "mixed" "\"\\\"\\\\\\n\n\";\"").tokens =
        (Token.scan ⟨2, 2⟩ [';', '"']).map (Token.literal "\\\"\\\\\\n\n" :: ·) ∧
      Expr.parse [Token.literal "\\\"\\\\\\n\n"] = .ok (.literal (.str "\"\\\n\n") .start) := by
  have hwrites : Token.Writes "\"\\\n\n".toList "\\\"\\\\\\n\n".toList :=
    .escaped (by decide) (.escaped (by decide) (.named (by decide)
      (.plain (by decide) (by decide) .nil)))
  exact ⟨hwrites, Source.tokens_written hwrites "mixed" ";\""⟩

end Sprout
