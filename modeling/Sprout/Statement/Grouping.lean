import Sprout.Malformed
import Sprout.Statement

namespace Sprout

namespace Statement

/-- The kind of a statement that is not a brace or part of a `for` header. -/
def classify (lead : Token) (rest : List Token) : Kind :=
  match lead.kind with
  | .keyword .main => .main
  | .keyword .ifWord | .keyword .whileWord => .header
  | .keyword .elseWord => .alternative
  | .keyword .breakWord | .keyword .continueWord => .jump
  | .keyword .returnWord => .result
  | .keyword .var | .keyword .const =>
    if (Token.splitTop (· = .equal) 0 (lead :: rest)).isSome then .initialization else .declaration
  | _ =>
    if (Token.splitTop Token.Kind.isAssignment 0 (lead :: rest)).isSome then .assignment
    else .operation

/-- A clause of a `for` header, which must not be empty. -/
def clause (header : Token) (kind : Kind) : List Token → Except (Defect Malformed) Statement
  | [] => .error (header.defect .emptyForClause)
  | lead :: rest => .ok ⟨kind, lead, rest⟩

/-- The statements of a `for` header: the word `header` and the tokens behind it, cut at `cuts`, the
numbers of tokens before each semicolon. The first clause keeps the word in front of it. -/
def forHeader (header : Token) (rest : List Token) (cuts : List Nat) :
    Except (Defect Malformed) (List Statement) :=
  match cuts with
  | [] => .error (header.defect .missingForSeparator)
  | [first] => do
    let start ← clause header .header (rest.take (first - 1))
    let bound ← clause header .bound (rest.drop (first - 1))
    .ok [⟨.header, header, start.tokens⟩, bound]
  | [first, second] => do
    let start ← clause header .header (rest.take (first - 1))
    let bound ← clause header .bound ((rest.drop (first - 1)).take (second - first))
    let step ← clause header .step (rest.drop (second - 1))
    .ok [⟨.header, header, start.tokens⟩, bound, step]
  | _ => .error (header.defect .extraForClause)

end Statement

/-- The state of the cutting: the statements made so far, the tokens of the current one with the
latest in front, the bracket depth, and where semicolons cut a `for` header, the latest in front. -/
structure Grouping where
  made : Array Statement := #[]
  current : List Token := []
  depth : Nat := 0
  cuts : List Nat := []
deriving Repr

namespace Grouping

/-- Ends the current statement, if there is one. -/
def flush (g : Grouping) : Except (Defect Malformed) Grouping :=
  match g.current.reverse with
  | [] => .ok { made := g.made }
  | lead :: rest =>
    if lead.kind = .keyword .forWord then do
      let clauses ← Statement.forHeader lead rest g.cuts.reverse
      .ok { made := g.made ++ clauses.toArray }
    else .ok { made := g.made.push ⟨Statement.classify lead rest, lead, rest⟩ }

/-- Whether `next`, outside brackets, starts a new statement. The words `else if` and `for var` stay
together. -/
def endsBefore (g : Grouping) (next : Token) : Bool :=
  match g.current with
  | [] => false
  | last :: earlier =>
    if next.kind.startsStatement then
      !(earlier.isEmpty &&
        ((last.kind = .keyword .elseWord && next.kind = .keyword .ifWord) ||
          (last.kind = .keyword .forWord && next.kind = .keyword .var)))
    else next.position.line ≠ last.position.line && !last.kind.continues

/-- Whether the current statement is a `for` header. -/
def inForHeader (g : Grouping) : Bool :=
  g.current.getLast?.any (·.kind = .keyword .forWord)

/-- Adds a token to the current statement. -/
def append (g : Grouping) (t : Token) : Grouping :=
  { g with current := t :: g.current, depth := t.kind.depthAfter g.depth }

/-- Adds a brace, which is a statement of its own. -/
def brace (g : Grouping) (kind : Statement.Kind) (t : Token) :
    Except (Defect Malformed) Grouping := do
  let g ← g.flush
  .ok { g with made := g.made.push ⟨kind, t, []⟩ }

/-- Takes one token into account. -/
def push (g : Grouping) (t : Token) : Except (Defect Malformed) Grouping :=
  match t.kind with
  | .eof | .comment => .ok g
  | .unknown => .error (t.defect (.ofUnknown t.lexeme))
  | .openBrace => g.brace .opening t
  | .closeBrace => g.brace .closing t
  | _ =>
    if t.kind = .semicolon && g.depth = 0 then
      if g.inForHeader then .ok { g with cuts := g.current.length :: g.cuts } else g.flush
    else if g.depth = 0 && g.endsBefore t then do
      let g ← g.flush
      .ok (g.append t)
    else .ok (g.append t)

end Grouping

/-- The statements that a list of tokens makes up. A statement ends at a semicolon, at a brace,
before a keyword that starts a statement, and at the end of a line, unless the line ends inside
brackets or with a token that needs something behind it. -/
def Statement.group (ts : List Token) : Except (Defect Malformed) (List Statement) := do
  let g ← ts.foldlM Grouping.push {}
  let g ← g.flush
  .ok g.made.toList

end Sprout
