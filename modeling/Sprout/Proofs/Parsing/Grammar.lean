import Sprout.Expr.Parser

namespace Sprout.Expr

/-- The binary operators of a tier, from the loosest to the tightest. -/
def tier : Nat → List BinaryOp
  | 0 => [.logical .or]
  | 1 => [.logical .and]
  | 2 => [.comparison .eq, .comparison .ne]
  | 3 => [.comparison .lt, .comparison .gt, .comparison .le, .comparison .ge]
  | 4 => [.arithmetic .add, .arithmetic .sub]
  | 5 => [.arithmetic .mul, .arithmetic .div, .arithmetic .mod]
  | 6 => [.arithmetic .pow]
  | _ => []

/-- The number of tiers. -/
def tierCount : Nat := 7

/-- What a name makes with the arguments behind it: a variable or a call, or else a member of the
receiver. -/
def named (receiver : Option Expr) (name : Token) (args : Option (List Expr)) : Expr :=
  match receiver, args with
  | none, none => ident name.lexeme name.position
  | none, some args => call name.lexeme args name.position
  | some whole, none => field whole name.lexeme name.position
  | some whole, some args => method whole name.lexeme args name.position

/-- What a type name makes with the brackets and the arguments behind it. -/
def typed (t : Token) (name : Primitive) (sizes : List (Option Expr)) (args : Option (List Expr)) :
    Expr :=
  match args with
  | none => typeName name sizes t.position
  | some args => convert name sizes args t.position

/-- What a run of tokens can be, with what it denotes. -/
inductive Phrase
  /-- An expression whose binary operators outside brackets are of the tier or tighter. -/
  | tier (tier : Nat) (e : Expr)
  /-- An operand with operators in front of it or steps behind it. -/
  | unary (e : Expr)
  /-- An operand with steps behind it. -/
  | stepped (e : Expr)
  /-- An operand without operators. -/
  | primary (e : Expr)
  /-- What follows a name, which may be that of a member. -/
  | chain (receiver : Option Expr) (name : Token) (e : Expr)
  /-- Arguments in parentheses, or nothing. -/
  | arguments (args : Option (List Expr))
  /-- Indexes in brackets behind a receiver. -/
  | indexes (receiver e : Expr)
  /-- A point with a member of a receiver, or nothing. -/
  | member (receiver e : Expr)
  /-- The brackets behind a type name. -/
  | dimensions (sizes : List (Option Expr))
  /-- Expressions between commas, or nothing. -/
  | items (es : List Expr)
  /-- One or more expressions between commas. -/
  | list (es : List Expr)

/-- Which runs of tokens denote which expressions, by rules alone: seven tiers of binary operators
that group to the left, then the operators in front of an operand, the steps behind it, and the
operand itself. Every phrase has its nesting, the number of levels from it down to its deepest
part. -/
inductive Derives : Phrase → Nat → List Token → Prop
  -- Binary operators
  | binary {k op left right t m n ts us} (hop : op ∈ tier k) (ht : t.kind = .operator op)
      (hleft : Derives (.tier k left) m ts) (hright : Derives (.tier (k + 1) right) n us) :
      Derives (.tier k (.binary op left right t.position)) (max m (n + 1)) (ts ++ t :: us)
  | tighter {k e n ts} (h : Derives (.tier (k + 1) e) n ts) : Derives (.tier k e) n ts
  | unary {e n ts} (h : Derives (.unary e) n ts) : Derives (.tier tierCount e) n ts
  -- Operators in front of an operand
  | plus {e t n ts} (ht : t.kind = .operator (.arithmetic .add)) (h : Derives (.unary e) n ts) :
      Derives (.unary (.unary .plus e t.position)) (n + 1) (t :: ts)
  | minus {e t n ts} (ht : t.kind = .operator (.arithmetic .sub)) (h : Derives (.unary e) n ts) :
      Derives (.unary (.unary .minus e t.position)) (n + 1) (t :: ts)
  | not {e t n ts} (ht : t.kind = .bang) (h : Derives (.unary e) n ts) :
      Derives (.unary (.unary .not e t.position)) (n + 1) (t :: ts)
  | stepBefore {op e t n ts} (ht : t.kind = .step op) (h : Derives (.unary e) n ts) :
      Derives (.unary (.stepBefore op e t.position)) (n + 1) (t :: ts)
  | stepped {e n ts} (h : Derives (.stepped e) n ts) : Derives (.unary e) n ts
  -- Steps behind an operand
  | stepAfter {op e t n ts} (ht : t.kind = .step op) (h : Derives (.stepped e) n ts) :
      Derives (.stepped (.stepAfter op e t.position)) n (ts ++ [t])
  | primary {e n ts} (h : Derives (.primary e) n ts) : Derives (.stepped e) n ts
  -- Operands
  | number {t} (ht : t.kind = .integer ∨ t.kind = .single ∨ t.kind = .double) :
      Derives (.primary (.number (.ofLexeme t.kind t.lexeme) t.position)) 1 [t]
  | bool {t} (ht : t.kind = .bool) :
      Derives (.primary (.literal (.bool (t.lexeme = "true")) t.position)) 1 [t]
  | string {t} (ht : t.kind = .string) :
      Derives (.primary (.literal (.str (String.ofList (unescape (unquote t.lexeme.toList))))
        t.position)) 1 [t]
  | char {t c} (ht : t.kind = .char) (hc : unescape (unquote t.lexeme.toList) = [c]) :
      Derives (.primary (.literal (.char c) t.position)) 1 [t]
  | null {t} (ht : t.kind = .keyword .null) : Derives (.primary (.null t.position)) 1 [t]
  | chain {name e n ts} (hname : name.kind = .identifier)
      (h : Derives (.chain none name e) n ts) : Derives (.primary e) n (name :: ts)
  | type {t name sizes args m n ts us} (ht : t.kind = .type name)
      (hsizes : Derives (.dimensions sizes) m ts) (hargs : Derives (.arguments args) n us) :
      Derives (.primary (typed t name sizes args)) (max m n) (t :: (ts ++ us))
  | parenthesised {opening closing e n ts} (hopening : opening.kind = .openParen)
      (hclosing : closing.kind = .closeParen) (h : Derives (.tier 0 e) n ts) :
      Derives (.primary e) (n + 1) (opening :: (ts ++ [closing]))
  | array {opening closing es n ts} (hopening : opening.kind = .openBracket)
      (hclosing : closing.kind = .closeBracket) (h : Derives (.items es) n ts) :
      Derives (.primary (.array es opening.position)) n (opening :: (ts ++ [closing]))
  -- What follows a name
  | link {receiver name args indexed e l m n ts us vs} (hargs : Derives (.arguments args) l ts)
      (hindexes : Derives (.indexes (named receiver name args) indexed) m us)
      (hmember : Derives (.member indexed e) n vs) :
      Derives (.chain receiver name e) (max l (max m n)) (ts ++ (us ++ vs))
  | noArguments : Derives (.arguments none) 1 []
  | arguments {opening closing es n ts} (hopening : opening.kind = .openParen)
      (hclosing : closing.kind = .closeParen) (h : Derives (.items es) n ts) :
      Derives (.arguments (some es)) n (opening :: (ts ++ [closing]))
  | noIndex {e} : Derives (.indexes e e) 1 []
  | index {receiver offset e opening closing m n ts us} (hopening : opening.kind = .openBracket)
      (hclosing : closing.kind = .closeBracket) (hoffset : Derives (.tier 0 offset) m ts)
      (h : Derives (.indexes (.index receiver offset) e) n us) :
      Derives (.indexes receiver e) (max (m + 1) n) (opening :: (ts ++ closing :: us))
  | noMember {e} : Derives (.member e e) 1 []
  | member {receiver name e point n ts} (hpoint : point.kind = .dot)
      (hname : name.kind = .identifier) (h : Derives (.chain (some receiver) name e) n ts) :
      Derives (.member receiver e) (n + 1) (point :: name :: ts)
  -- Brackets behind a type name
  | noDimension : Derives (.dimensions []) 1 []
  | unsized {sizes opening closing n us} (hopening : opening.kind = .openBracket)
      (hclosing : closing.kind = .closeBracket) (h : Derives (.dimensions sizes) n us) :
      Derives (.dimensions (none :: sizes)) n (opening :: closing :: us)
  | sized {size sizes opening closing m n ts us} (hopening : opening.kind = .openBracket)
      (hclosing : closing.kind = .closeBracket) (hsize : Derives (.tier 0 size) m ts)
      (h : Derives (.dimensions sizes) n us) :
      Derives (.dimensions (some size :: sizes)) (max (m + 1) n) (opening :: (ts ++ closing :: us))
  -- Lists
  | noItems : Derives (.items []) 1 []
  | items {es n ts} (h : Derives (.list es) n ts) : Derives (.items es) n ts
  | last {e n ts} (h : Derives (.tier 0 e) n ts) : Derives (.list [e]) (n + 1) ts
  | more {e es comma m n ts us} (hcomma : comma.kind = .comma) (hhead : Derives (.tier 0 e) m ts)
      (h : Derives (.list es) n us) :
      Derives (.list (e :: es)) (max (m + 1) n) (ts ++ comma :: us)

/-- The tier of an operator and its precedence say the same. -/
theorem mem_tier_iff {op : BinaryOp} {k : Nat} : op ∈ tier k ↔ op.precedence = k + 1 := by
  match k with
  | 0 | 1 | 2 | 3 | 4 | 5 | 6 =>
    rcases op with op | op | op <;> cases op <;> simp [tier, BinaryOp.precedence]
  | k + 7 =>
    have hbound := op.precedence_bounds
    simp only [tier, List.not_mem_nil, false_iff]
    omega

namespace Derives

variable {p : Phrase} {e : Expr} {k n : Nat} {ts : List Token}

/-- Every phrase takes at least its own level. -/
theorem nesting_pos (h : Derives p n ts) : 1 ≤ n := by
  induction h <;> omega

/-- An expression of a tier is one of every looser tier. -/
theorem loosen {j : Nat} (hjk : j ≤ k) (h : Derives (.tier k e) n ts) :
    Derives (.tier j e) n ts := by
  induction k with
  | zero =>
    have hj : j = 0 := by omega
    exact hj ▸ h
  | succ k ih =>
    by_cases hj : j = k + 1
    · exact hj ▸ h
    · exact ih (by omega) h.tighter

end Derives

end Sprout.Expr
