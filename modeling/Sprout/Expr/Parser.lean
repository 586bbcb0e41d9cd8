import Sprout.Expr
import Sprout.Malformed

namespace Sprout.Expr

/-- The text between the quotes of a lexeme. -/
def unquote (lexeme : List Char) : List Char :=
  (lexeme.drop 1).dropLast

/-- The character that a backslash and `c` stand for. -/
def escaped (c : Char) : Char :=
  if c = 'n' then '\n'
  else if c = 't' then '\t'
  else if c = 'r' then '\r'
  else if c = '0' then '\x00'
  else c

/-- A text with its escapes replaced; a backslash at the end stands for itself. -/
def unescape : List Char → List Char
  | [] => []
  | '\\' :: rest =>
    match rest with
    | [] => ['\\']
    | c :: rest => escaped c :: unescape rest
  | c :: rest => c :: unescape rest

/-- Sub-expressions may be nested this deep. -/
def maxNesting : Nat := 128

/-- A value read from the front of a run, and the tokens behind it, fewer than `bound`. -/
structure Taken (α : Type) (bound : Nat) where
  value : α
  rest : List Token
  short : rest.length < bound

namespace Taken

variable {α β : Type} {m n : Nat}

/-- The same result under a weaker bound. -/
def widen (taken : Taken α m) (h : m ≤ n) : Taken α n :=
  ⟨taken.value, taken.rest, Nat.lt_of_lt_of_le taken.short h⟩

/-- The same result when one more token stands in front. -/
def behind (taken : Taken α n) : Taken α (n + 1) :=
  taken.widen (Nat.le_succ n)

/-- Another value for the same tokens. -/
def map (f : α → β) (taken : Taken α n) : Taken β n :=
  ⟨f taken.value, taken.rest, taken.short⟩

/-- A value for which none of the tokens is taken. -/
def keep (value : α) (ts : List Token) : Taken α (ts.length + 1) :=
  ⟨value, ts, Nat.lt_succ_self ts.length⟩

/-- What is read behind a first result, possibly without taking a token. -/
def followedBy (first : Taken α n) (second : Taken β (first.rest.length + 1)) : Taken β n :=
  second.widen first.short

/-- What is read behind a first result by taking at least one token. -/
def upTo (first : Taken α n) (second : Taken β first.rest.length) : Taken β n :=
  first.followedBy second.behind

end Taken

/-- A result that leaves fewer than `bound` tokens over, or what is wrong with the run. -/
abbrev Reading (α : Type) (bound : Nat) := Except (Defect Malformed) (Taken α bound)

/-- A reader of expressions whose operators bind tighter than `floor`. It takes at least one
token. -/
abbrev ExpressionReader := (floor : Nat) → (ts : List Token) → Reading Expr ts.length

/-- A reader of what follows a name: arguments, indexes and members. The expression is `bare` if no
arguments follow, and `called` of the arguments otherwise. -/
abbrev LinkReader :=
  (bare : Expr) → (called : List Expr → Expr) → (ts : List Token) → Reading Expr (ts.length + 1)

/-- The readers for the expressions that are still allowed so many levels deep. Each level is built
from the one below it, and below the last one everything is refused. -/
structure Level where
  expression : ExpressionReader
  link : LinkReader

/-- Takes a token of the given kind from the front of a run, or reports `defect`. -/
def expect (kind : Token.Kind) (defect : Defect Malformed) :
    (ts : List Token) → Reading Unit ts.length
  | [] => .error defect
  | t :: rest => if t.kind = kind then .ok (.keep () rest) else .error defect

/-- Further elements of a list, each behind a comma. -/
def listTail (read : ExpressionReader) (ts : List Token) : Reading (List Expr) (ts.length + 1) :=
  match ts with
  | [] => .ok (.keep [] [])
  | t :: rest =>
    if t.kind = .comma then do
      let head ← read 0 rest
      let tail ← listTail read head.rest
      .ok (head.followedBy (tail.map (head.value :: ·))).behind.behind
    else .ok (.keep [] (t :: rest))
termination_by ts.length
decreasing_by exact Nat.lt_succ_of_lt head.short

/-- One or more expressions between commas. -/
def list (read : ExpressionReader) (ts : List Token) : Reading (List Expr) ts.length := do
  let head ← read 0 ts
  let tail ← listTail read head.rest
  .ok (head.followedBy (tail.map (head.value :: ·)))

/-- One expression and a closing bracket of kind `close` behind it; the `defect` is reported if that
is missing. -/
def closed (read : ExpressionReader) (close : Token.Kind) (defect : Defect Malformed)
    (ts : List Token) : Reading Expr ts.length := do
  let inner ← read 0 ts
  let closing ← expect close defect inner.rest
  .ok (inner.upTo (closing.map fun _ => inner.value))

/-- The list behind an opening bracket, which may be empty, and its closing bracket of kind `close`.
The opening bracket shows the `defect` if that is missing. -/
def enclosed (read : ExpressionReader) (close : Token.Kind) (defect : Defect Malformed)
    (ts : List Token) : Reading (List Expr) ts.length :=
  match expect close defect ts with
  | .ok closing => .ok (closing.map fun _ => [])
  | .error _ => do
    let items ← list read ts
    let closing ← expect close defect items.rest
    .ok (items.upTo (closing.map fun _ => items.value))

/-- The offset behind the opening bracket of an index, up to the closing bracket. -/
def offset (read : ExpressionReader) (opening : Token) (ts : List Token) :
    Reading Expr ts.length :=
  if (ts.head?.map Token.kind) = some .closeBracket then .error (opening.defect .missingIndex)
  else closed read .closeBracket (opening.defect .unclosedIndex) ts

/-- The indexes behind `receiver`, each in brackets. -/
def indexes (read : ExpressionReader) (receiver : Expr) (ts : List Token) :
    Reading Expr (ts.length + 1) :=
  match ts with
  | [] => .ok (.keep receiver [])
  | opening :: rest =>
    if opening.kind = .openBracket then do
      let first ← offset read opening rest
      let all ← indexes read (.index receiver first.value) first.rest
      .ok (first.followedBy all).behind.behind
    else .ok (.keep receiver (opening :: rest))
termination_by ts.length
decreasing_by exact Nat.lt_succ_of_lt first.short

/-- The size behind the opening bracket of a dimension, if there is one, up to the closing
bracket. -/
def size? (read : ExpressionReader) (opening : Token) (ts : List Token) :
    Reading (Option Expr) ts.length :=
  match expect .closeBracket (opening.defect .unclosedIndex) ts with
  | .ok closing => .ok (closing.map fun _ => none)
  | .error _ => do
    let size ← closed read .closeBracket (opening.defect .unclosedIndex) ts
    .ok (size.map some)

/-- The brackets behind a type name. -/
def dimensions (read : ExpressionReader) (ts : List Token) :
    Reading (List (Option Expr)) (ts.length + 1) :=
  match ts with
  | [] => .ok (.keep [] [])
  | opening :: rest =>
    if opening.kind = .openBracket then do
      let first ← size? read opening rest
      let others ← dimensions read first.rest
      .ok (first.followedBy (others.map (first.value :: ·))).behind.behind
    else .ok (.keep [] (opening :: rest))
termination_by ts.length
decreasing_by exact Nat.lt_succ_of_lt first.short

/-- The arguments behind a name or a type, if an opening parenthesis follows. -/
def arguments? (read : ExpressionReader) (ts : List Token) :
    Reading (Option (List Expr)) (ts.length + 1) :=
  match ts with
  | [] => .ok (.keep none [])
  | opening :: rest =>
    if opening.kind = .openParen then do
      let args ← enclosed read .closeParen (opening.defect .unclosedArguments) rest
      .ok (args.map some).behind.behind
    else .ok (.keep none (opening :: rest))

/-- The member of `receiver` behind a point, if there is one. `deeper` reads what follows its name,
if members are still allowed. -/
def member (ending : Defect Malformed) (deeper : Option LinkReader) (receiver : Expr) :
    (ts : List Token) → Reading Expr (ts.length + 1)
  | [] => .ok (.keep receiver [])
  | point :: rest =>
    if point.kind = .dot then
      match rest with
      | [] => .error ending
      | name :: rest =>
        if name.kind = .identifier then
          match deeper with
          | none => .error (name.defect .tooDeep)
          | some link => do
            let all ← link (.field receiver name.lexeme name.position)
              (.method receiver name.lexeme · name.position) rest
            .ok all.behind.behind
        else .error (name.defect .missingMember)
    else .ok (.keep receiver (point :: rest))

/-- What follows a name: arguments, indexes, and a member with what follows it. -/
def linkWith (ending : Defect Malformed) (read : ExpressionReader) (deeper : Option LinkReader) :
    LinkReader := fun bare called ts => do
  let args ← arguments? read ts
  let indexed ← indexes read (args.value.elim bare called) args.rest
  let all ← member ending deeper indexed.value indexed.rest
  .ok (args.followedBy (indexed.followedBy all))

/-- The steps behind an operand. -/
def stepsAfter (operand : Expr) : (ts : List Token) → Taken Expr (ts.length + 1)
  | [] => .keep operand []
  | t :: rest =>
    match t.kind with
    | .step op => (stepsAfter (.stepAfter op operand t.position) rest).behind
    | _ => .keep operand (t :: rest)

/-- An operand without operators, from its first token `t` and the tokens behind it. -/
def operand (below : Level) (t : Token) (rest : List Token) : Reading Expr (rest.length + 1) :=
  match t.kind with
  | .integer | .single | .double =>
    .ok (.keep (.number (.ofLexeme t.kind t.lexeme) t.position) rest)
  | .bool => .ok (.keep (.literal (.bool (t.lexeme = "true")) t.position) rest)
  | .char =>
    match unescape (unquote t.lexeme.toList) with
    | [c] => .ok (.keep (.literal (.char c) t.position) rest)
    | _ => .error (t.defect .characterLiteral)
  | .string =>
    let text := String.ofList (unescape (unquote t.lexeme.toList))
    .ok (.keep (.literal (.str text) t.position) rest)
  | .keyword .null => .ok (.keep (.null t.position) rest)
  | .identifier => below.link (.ident t.lexeme t.position) (.call t.lexeme · t.position) rest
  | .type name => do
    let sizes ← dimensions below.expression rest
    let args ← arguments? below.expression sizes.rest
    let build (args : Option (List Expr)) : Expr :=
      args.elim (typeName name sizes.value t.position) (convert name sizes.value · t.position)
    .ok (sizes.followedBy (args.map build))
  | .openParen => do
    let inner ← closed below.expression .closeParen (t.defect .unclosedParenthesis) rest
    .ok inner.behind
  | .openBracket => do
    let elements ← enclosed below.expression .closeBracket (t.defect .unclosedArray) rest
    .ok (elements.map (.array · t.position)).behind
  | .unknown => .error (t.defect (.ofUnknown t.lexeme))
  | _ => .error (t.defect (.notAnExpression t.lexeme))

/-- The operator that a token is in front of an operand. -/
def leading? : Token.Kind → Option (Expr → Position → Expr)
  | .operator (.arithmetic .add) => some (.unary .plus)
  | .operator (.arithmetic .sub) => some (.unary .minus)
  | .bang => some (.unary .not)
  | .step op => some (.stepBefore op)
  | _ => none

/-- An operand with the operators in front of it or the steps behind it. -/
def unaryOperand (ending : Defect Malformed) (below : Level) :
    (ts : List Token) → Reading Expr ts.length
  | [] => .error ending
  | t :: rest =>
    match leading? t.kind with
    | some build => do
      let inner ← below.expression unaryPrecedence rest
      .ok (inner.map (build · t.position)).behind
    | none => do
      let inner ← operand below t rest
      .ok (inner.followedBy (stepsAfter inner.value inner.rest))

/-- The operators behind `left` that bind tighter than `floor`, with their right operands. -/
def binaryTail (read : ExpressionReader) (floor : Nat) (left : Expr) (ts : List Token) :
    Reading Expr (ts.length + 1) :=
  match ts with
  | [] => .ok (.keep left [])
  | t :: rest =>
    match t.kind with
    | .operator op =>
      if op.precedence ≤ floor then .ok (.keep left (t :: rest))
      else do
        let right ← read op.precedence rest
        let all ← binaryTail read floor (.binary op left right.value t.position) right.rest
        .ok (right.followedBy all).behind.behind
    | _ => .ok (.keep left (t :: rest))
termination_by ts.length
decreasing_by exact Nat.lt_succ_of_lt right.short

/-- An expression whose parts are read one level further down. -/
def expressionWith (ending : Defect Malformed) (below : Level) : ExpressionReader :=
  fun floor ts => do
    let left ← unaryOperand ending below ts
    let all ← binaryTail below.expression floor left.value left.rest
    .ok (left.followedBy all)

/-- Refuses every expression, since it would be nested too deeply. -/
def refuse (ending : Defect Malformed) : ExpressionReader :=
  fun _ ts =>
    match ts with
    | [] => .error ending
    | t :: _ => .error (t.defect .tooDeep)

/-- The readers when so many further levels of nesting are allowed. A run that stops too early is
reported as `ending`. -/
def level (ending : Defect Malformed) : Nat → Level
  | 0 => ⟨refuse ending, linkWith ending (refuse ending) none⟩
  | depth + 1 =>
    let below := level ending depth
    let expression := expressionWith ending below
    ⟨expression, linkWith ending expression (some below.link)⟩

/-- The defect of a run that stops too early: one column behind its last token. -/
def endingOf (run : List Token) : Defect Malformed :=
  match run.getLast? with
  | none => ⟨.noExpression, .start, 1⟩
  | some last =>
    ⟨.endOfExpression, ⟨last.position.line, last.position.column + last.width⟩, 1⟩

/-- The readers for a whole run. -/
def readers (run : List Token) : Level :=
  level (endingOf run) maxNesting

/-- The tokens of a run before the end of the text. -/
def body (run : List Token) : List Token :=
  run.takeWhile (·.kind ≠ .eof)

/-- The value of a reading that used up all tokens. -/
def complete {α : Type} {bound : Nat} (taken : Taken α bound) : Except (Defect Malformed) α :=
  match taken.rest with
  | [] => .ok taken.value
  | t :: _ => .error (t.defect (.trailing t.lexeme))

/-- Reads a whole run as one expression. -/
def parse (run : List Token) : Except (Defect Malformed) Expr := do
  complete (← (readers run).expression 0 (body run))

/-- Reads a whole run as expressions between commas. -/
def parseList (run : List Token) : Except (Defect Malformed) (List Expr) := do
  complete (← list (readers run).expression (body run))

/-- Reads a whole run as a type. -/
def parseType (run : List Token) : Except (Defect Malformed) Expr :=
  match body run with
  | [] => .error (endingOf run)
  | t :: rest =>
    match t.kind with
    | .type name => do
      let sizes ← dimensions (readers run).expression rest
      complete (sizes.map (typeName name · t.position))
    | _ => .error (t.defect (.unknownType t.lexeme))

end Sprout.Expr
