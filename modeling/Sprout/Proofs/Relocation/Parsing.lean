import Sprout.Proofs.Relocation.Typing

namespace Sprout

variable (f : Position → Position)

namespace Token

variable (t : Token)

@[simp] theorem kind_relocate : (t.relocate f).kind = t.kind := rfl

@[simp] theorem lexeme_relocate : (t.relocate f).lexeme = t.lexeme := rfl

@[simp] theorem position_relocate : (t.relocate f).position = f t.position := rfl

/-- A run is cut at the same token, wherever that stands. -/
theorem splitTop_relocate (p : Kind → Bool) (depth : Nat) (run : List Token) :
    splitTop p depth (run.map (relocate f)) = (splitTop p depth run).map fun (before, mid, after) =>
      (before.map (relocate f), mid.relocate f, after.map (relocate f)) := by
  induction run generalizing depth with
  | nil => rfl
  | cons t run ih =>
    rw [List.map_cons, splitTop, splitTop, ih, kind_relocate]
    by_cases hcut : (!t.kind.isOpening && !t.kind.isClosing && depth = 0 && p t.kind) = true
    · rw [if_pos hcut, if_pos hcut]
      rfl
    · rw [if_neg hcut, if_neg hcut]
      cases splitTop p (t.kind.depthAfter depth) run <;> rfl

/-- A run is cut at the same commas wherever its tokens stand. -/
theorem pieces_relocate (depth : Nat) (run : List Token) :
    pieces depth (run.map (relocate f)) = (pieces depth run).map (List.map (relocate f)) := by
  induction run generalizing depth with
  | nil => rfl
  | cons t run ih =>
    rw [List.map_cons, pieces, pieces, ih, ih, kind_relocate]
    by_cases hcut : (t.kind = .comma && depth = 0) = true
    · rw [if_pos hcut, if_pos hcut]
      rfl
    · rw [if_neg hcut, if_neg hcut]
      cases pieces (t.kind.depthAfter depth) run <;> rfl

/-- The pieces between commas are the moved pieces. -/
theorem splitCommas_relocate (run : List Token) :
    splitCommas (run.map (relocate f)) = (splitCommas run).map (List.map (relocate f)) :=
  pieces_relocate f 0 run

end Token

namespace Expr

/-- The phrase with all its positions moved. The grammar looks at the kinds of tokens and at their
lexemes only, so a phrase stays one. -/
def Phrase.relocate : Phrase → Phrase
  | .tier k e => .tier k (e.relocate f)
  | .unary e => .unary (e.relocate f)
  | .stepped e => .stepped (e.relocate f)
  | .primary e => .primary (e.relocate f)
  | .chain receiver name e =>
    .chain (receiver.map (Expr.relocate f)) (name.relocate f) (e.relocate f)
  | .arguments args => .arguments (args.map (List.map (Expr.relocate f)))
  | .indexes receiver e => .indexes (receiver.relocate f) (e.relocate f)
  | .member receiver e => .member (receiver.relocate f) (e.relocate f)
  | .dimensions sizes => .dimensions (sizes.map (Option.map (Expr.relocate f)))
  | .items es => .items (es.map (Expr.relocate f))
  | .list es => .list (es.map (Expr.relocate f))

/-- A name behind a dot is put together from parts at the other positions. -/
theorem relocate_named (receiver : Option Expr) (name : Token) (args : Option (List Expr)) :
    (named receiver name args).relocate f =
      named (receiver.map (relocate f)) (name.relocate f) (args.map (List.map (relocate f))) := by
  cases receiver <;> cases args <;> simp [named, relocate]

/-- A type or a conversion is put together from parts at the other positions. -/
theorem relocate_typed (t : Token) (name : Primitive) (sizes : List (Option Expr))
    (args : Option (List Expr)) :
    (typed t name sizes args).relocate f =
      typed (t.relocate f) name (sizes.map (Option.map (relocate f)))
        (args.map (List.map (relocate f))) := by
  cases args <;> simp [typed, relocate]

/-- A run derives the same phrase at other positions, by induction on the derivation: every rule
copies the positions of its tokens and looks at none. -/
theorem Derives.relocate {p : Phrase} {n : Nat} {ts : List Token} (h : Derives p n ts) :
    Derives (p.relocate f) n (ts.map (Token.relocate f)) := by
  have moved {t : Token} {kind : Token.Kind} (h : t.kind = kind) : (t.relocate f).kind = kind := h
  induction h with
  | binary hop ht hleft hright ihleft ihright =>
    simpa [Phrase.relocate, Expr.relocate] using Derives.binary hop (moved ht) ihleft ihright
  | tighter h ih => exact .tighter ih
  | unary h ih => exact .unary ih
  | plus ht h ih => exact .plus (moved ht) ih
  | minus ht h ih => exact .minus (moved ht) ih
  | not ht h ih => exact .not (moved ht) ih
  | stepBefore ht h ih => exact .stepBefore (moved ht) ih
  | stepped h ih => exact .stepped ih
  | stepAfter ht h ih => simpa [Phrase.relocate, Expr.relocate] using Derives.stepAfter (moved ht) ih
  | primary h ih => exact .primary ih
  | @number t ht => exact Derives.number (t := t.relocate f) ht
  | bool ht => exact .bool (moved ht)
  | string ht => exact .string (moved ht)
  | @char t c ht hc => exact Derives.char (t := t.relocate f) ht hc
  | null ht => exact .null (moved ht)
  | chain hname h ih => exact .chain (moved hname) ih
  | type ht hsizes hargs ihsizes ihargs =>
    simpa [Phrase.relocate, relocate_typed] using Derives.type (moved ht) ihsizes ihargs
  | parenthesised hopening hclosing h ih =>
    simpa [Phrase.relocate, Expr.relocate] using Derives.parenthesised (moved hopening) (moved hclosing) ih
  | array hopening hclosing h ih =>
    simpa [Phrase.relocate, Expr.relocate] using Derives.array (moved hopening) (moved hclosing) ih
  | link hargs hindexes hmember ihargs ihindexes ihmember =>
    simp only [Phrase.relocate, relocate_named] at ihindexes
    simpa [Phrase.relocate, Expr.relocate] using Derives.link ihargs ihindexes ihmember
  | noArguments => exact .noArguments
  | arguments hopening hclosing h ih =>
    simpa [Phrase.relocate, Expr.relocate] using Derives.arguments (moved hopening) (moved hclosing) ih
  | noIndex => exact .noIndex
  | index hopening hclosing hoffset h ihoffset ih =>
    simpa [Phrase.relocate, Expr.relocate] using Derives.index (moved hopening) (moved hclosing) ihoffset ih
  | noMember => exact .noMember
  | member hpoint hname h ih => exact .member (moved hpoint) (moved hname) ih
  | noDimension => exact .noDimension
  | unsized hopening hclosing h ih => exact .unsized (moved hopening) (moved hclosing) ih
  | sized hopening hclosing hsize h ihsize ih =>
    simpa [Phrase.relocate, Expr.relocate] using Derives.sized (moved hopening) (moved hclosing) ihsize ih
  | noItems => exact .noItems
  | items h ih => exact .items ih
  | last h ih => exact .last ih
  | more hcomma hhead h ihhead ih =>
    simpa [Phrase.relocate, Expr.relocate] using Derives.more (moved hcomma) ihhead ih

/-- The last token of a run is left out wherever the run stands, if it is the one for the end. -/
theorem body_relocate (run : List Token) :
    body (run.map (Token.relocate f)) = (body run).map (Token.relocate f) := by
  rw [body, body, List.takeWhile_map]
  rfl

variable {run : List Token}

/-- An expression that is read from a run is read from the moved run, at the positions that
result. -/
theorem parse_relocate {e : Expr} (h : parse run = .ok e) :
    parse (run.map (Token.relocate f)) = .ok (e.relocate f) := by
  obtain ⟨n, hn, hderives⟩ := derives_of_parse h
  have hmoved := hderives.relocate f
  rw [← body_relocate] at hmoved
  exact hmoved.parse.1 hn

/-- Expressions between commas are read from the moved run, at the positions that result. -/
theorem parseList_relocate {es : List Expr} (h : parseList run = .ok es) :
    parseList (run.map (Token.relocate f)) = .ok (es.map (relocate f)) := by
  obtain ⟨n, hn, hderives⟩ := derives_of_parseList h
  have hmoved := hderives.relocate f
  rw [← body_relocate] at hmoved
  exact hmoved.parseList.1 hn

/-- A type is read from the moved run, at the positions that result. -/
theorem parseType_relocate {e : Expr} (h : parseType run = .ok e) :
    parseType (run.map (Token.relocate f)) = .ok (e.relocate f) := by
  obtain ⟨t, name, sizes, ts, hbody, ht, rfl, n, hn, hderives⟩ := derives_of_parseType h
  have hmoved : body (run.map (Token.relocate f)) = t.relocate f :: ts.map (Token.relocate f) := by
    rw [body_relocate, hbody, List.map_cons]
  have hparse := (Derives.parseType hmoved ht (hderives.relocate f)).1 hn
  simpa [relocate] using hparse

end Expr

end Sprout
