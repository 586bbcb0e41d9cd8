import Sprout.Proofs.Parsing.Completeness
import Sprout.Proofs.Parsing.Shapes

namespace Sprout.Expr

/-- The number of names in a row of members: three in `a(1)[2].b.c(3)`. Each of them is read one
level below the name in front of it, so a row is no chain in the sense below. -/
def links : Expr → Nat
  | index receiver _ => links receiver
  | field receiver _ _ | method receiver _ _ _ => links receiver + 1
  | _ => 1

/-- Every tree has a node. -/
theorem links_pos (e : Expr) : 1 ≤ e.links := by
  unfold links
  split
  · exact links_pos _
  · omega
  · omega
  · omega

mutual
/-- The weight of the heaviest path down a tree. A link of a chain, from an operator to its left
operand or from a step to what it stands behind, weighs `link`, and every other step `level`. In a
row of members each name has its arguments, its indexes and the next name below it. -/
def descent (link level : Nat) : Expr → Nat
  | binary _ left right _ => max (descent link level left + link) (descent link level right + level)
  | unary _ operand _ | stepBefore _ operand _ => descent link level operand + level
  | stepAfter _ operand _ => descent link level operand + link
  | call _ args _ => descentAll link level args
  | index receiver offset =>
    max (descent link level receiver) (links receiver * level + descent link level offset)
  | field receiver _ _ => max (descent link level receiver) (links receiver * level)
  | method receiver _ args _ =>
    max (descent link level receiver) (links receiver * level + descentAll link level args)
  | typeName _ sizes _ => descentSizes link level sizes
  | convert _ sizes args _ => max (descentAll link level args) (descentSizes link level sizes)
  | array elements _ => descentAll link level elements
  | ident .. | number .. | literal .. | null _ => 0
/-- The weight of the heaviest path from a node down into expressions below it. -/
def descentAll (link level : Nat) : List Expr → Nat
  | [] => 0
  | e :: es => max (descent link level e + level) (descentAll link level es)
/-- The weight of the heaviest path from a type name down into its sizes. -/
def descentSizes (link level : Nat) : List (Option Expr) → Nat
  | [] => 0
  | none :: rest => descentSizes link level rest
  | some size :: rest => max (descent link level size + level) (descentSizes link level rest)
end

/-- The height of a tree: the number of nodes on the longest path down. -/
def height (e : Expr) : Nat :=
  e.descent 1 1 + 1

/-- The nesting of a tree: its height when the links of a chain are not counted. -/
def nesting (e : Expr) : Nat :=
  e.descent 0 1 + 1

/-- The greatest number of links of chains on a path down a tree. -/
def chained (e : Expr) : Nat :=
  e.descent 1 0

variable (link link' level level' : Nat)

mutual
/-- No path is heavier than the heaviest paths of two weights together, when both are counted. -/
theorem descent_add_le : (e : Expr) →
    e.descent (link + link') (level + level') ≤ e.descent link level + e.descent link' level'
  | binary _ left right _ => by
    have hleft := descent_add_le left
    have hright := descent_add_le right
    simp only [descent]
    omega
  | unary _ operand _ | stepBefore _ operand _ | stepAfter _ operand _ => by
    have hoperand := descent_add_le operand
    simp only [descent]
    omega
  | call _ args _ => by
    simpa only [descent] using descentAll_add_le args
  | index receiver offset => by
    have hreceiver := descent_add_le receiver
    have hoffset := descent_add_le offset
    simp only [descent, Nat.mul_add]
    omega
  | field receiver _ _ => by
    have hreceiver := descent_add_le receiver
    simp only [descent, Nat.mul_add]
    omega
  | method receiver _ args _ => by
    have hreceiver := descent_add_le receiver
    have hargs := descentAll_add_le args
    simp only [descent, Nat.mul_add]
    omega
  | typeName _ sizes _ => by
    simpa only [descent] using descentSizes_add_le sizes
  | convert _ sizes args _ => by
    have hargs := descentAll_add_le args
    have hsizes := descentSizes_add_le sizes
    simp only [descent]
    omega
  | array elements _ => by
    simpa only [descent] using descentAll_add_le elements
  | ident .. | number .. | literal .. | null _ => by simp only [descent, Nat.le_refl]
/-- The weights of links and of levels are counted apart, for several expressions. -/
theorem descentAll_add_le : (es : List Expr) →
    descentAll (link + link') (level + level') es ≤
      descentAll link level es + descentAll link' level' es
  | [] => Nat.le_refl 0
  | e :: es => by
    have hhead := descent_add_le e
    have htail := descentAll_add_le es
    simp only [descentAll]
    omega
/-- The weights of links and of levels are counted apart, for the sizes of dimensions. -/
theorem descentSizes_add_le : (sizes : List (Option Expr)) →
    descentSizes (link + link') (level + level') sizes ≤
      descentSizes link level sizes + descentSizes link' level' sizes
  | [] => Nat.le_refl 0
  | none :: rest => by
    simpa only [descentSizes] using descentSizes_add_le rest
  | some size :: rest => by
    have hsize := descent_add_le size
    have htail := descentSizes_add_le rest
    simp only [descentSizes]
    omega
end

/-- A tree is no higher than its nesting and its chains together. -/
theorem height_le (e : Expr) : e.height ≤ e.nesting + e.chained := by
  have hsum : e.descent 1 1 ≤ e.descent 0 1 + e.descent 1 0 := descent_add_le 0 1 1 0 e
  unfold height nesting chained
  omega

/-- `Nested p n`: the expressions of a phrase that takes `n` levels are nested that deep, counted
from the level of the phrase. Behind a receiver the levels go on from its last name. -/
def Nested : Phrase → Nat → Prop
  | .tier _ e, n | .unary e, n | .stepped e, n | .primary e, n | .chain none _ e, n => e.nesting ≤ n
  | .chain (some whole) _ e, n => e.nesting ≤ max whole.nesting (whole.links + n)
  | .arguments none, n => 1 ≤ n
  | .arguments (some es), n | .items es, n | .list es, n => descentAll 0 1 es + 1 ≤ n
  | .indexes receiver e, n =>
    e.links = receiver.links ∧ e.nesting + 1 ≤ max (receiver.nesting + 1) (receiver.links + n)
  | .member receiver e, n => e.nesting + 1 ≤ max (receiver.nesting + 1) (receiver.links + n)
  | .dimensions sizes, n => descentSizes 0 1 sizes + 1 ≤ n

/-- What the grammar derives with so many levels is nested no deeper, by induction on the
derivation: a rule that goes a level down in the tree goes one down in the nesting, unless it is a
link of a chain. -/
theorem Derives.nested {p : Phrase} {n : Nat} {ts : List Token} (h : Derives p n ts) :
    Nested p n := by
  induction h with
  | binary _ _ _ _ ihleft ihright =>
    simp only [Nested, nesting, descent] at *
    omega
  | tighter _ ih | unary _ ih | stepped _ ih | primary _ ih | items _ ih | chain _ _ ih => exact ih
  | plus _ _ ih | minus _ _ ih | not _ _ ih | stepBefore _ _ ih | stepAfter _ _ ih =>
    simp only [Nested, nesting, descent] at *
    omega
  | number | bool | string | char | null | noArguments => simp [Nested, nesting, descent]
  | @type t name sizes args m n ts us ht _ _ ihsizes ihargs =>
    cases args <;> simp only [Nested, typed, nesting, descent] at * <;> omega
  | parenthesised _ _ _ ih =>
    simp only [Nested] at *
    omega
  | array _ _ _ ih | arguments _ _ _ ih =>
    simpa only [Nested, nesting, descent] using ih
  | @link receiver name args indexed e l m n ts us vs _ _ _ ihargs ihindexes ihmember =>
    obtain ⟨hlinks, hindexed⟩ := ihindexes
    cases receiver <;> cases args <;>
      simp only [Nested, named, nesting, descent, links] at * <;> omega
  | noIndex => exact ⟨rfl, by omega⟩
  | index _ _ _ _ ihoffset ih =>
    obtain ⟨hlinks, hindexed⟩ := ih
    refine ⟨hlinks, ?_⟩
    simp only [Nested, nesting, descent, links] at *
    omega
  | noMember =>
    simp only [Nested]
    omega
  | member _ _ _ ih =>
    simp only [Nested] at *
    omega
  | noDimension | noItems => simp [Nested, descentSizes, descentAll]
  | unsized _ _ _ ih => simpa only [Nested, descentSizes] using ih
  | sized _ _ _ _ ihsize ih | more _ _ _ ihsize ih =>
    simp only [Nested, nesting, descentSizes, descentAll] at *
    omega
  | last _ ih =>
    simp only [Nested, nesting, descentAll] at *
    omega

/-- An expression that is read is nested no deeper than the limit, and so no higher than the limit
and the links of its chains together. -/
theorem height_le_of_parse {run : List Token} {e : Expr} (h : parse run = .ok e) :
    e.nesting ≤ maxNesting ∧ e.height ≤ maxNesting + e.chained := by
  obtain ⟨n, hn, hderives⟩ := derives_of_parse h
  have hnesting : e.nesting ≤ maxNesting := hderives.nested.trans hn
  have hheight := e.height_le
  exact ⟨hnesting, by omega⟩

/-- The token of an operator at a column. -/
private def operatorAt (op : Arithmetic) (column : Nat) : Token :=
  ⟨.operator (.arithmetic op), op.symbol, ⟨1, column⟩⟩

/-- The token of the number `1` at a column. -/
private def oneAt (column : Nat) : Token :=
  ⟨.integer, "1", ⟨1, column⟩⟩

/-- The expression `1` at a column. -/
private def oneFrom (column : Nat) : Expr :=
  .number (.ofLexeme .integer "1") ⟨1, column⟩

/-- The run `- - … 1` from a column on, with so many signs. -/
private def signedRun : (signs column : Nat) → List Token
  | 0, column => [oneAt column]
  | signs + 1, column => operatorAt .sub column :: signedRun signs (column + 2)

/-- What `- - … 1` denotes. -/
private def signedFrom : (signs column : Nat) → Expr
  | 0, column => oneFrom column
  | signs + 1, column => .unary .minus (signedFrom signs (column + 2)) ⟨1, column⟩

/-- The run `- - … 1 + 1 + 1 …`, with so many signs and so many sums. -/
private def sumRun (signs : Nat) : Nat → List Token
  | 0 => signedRun signs 1
  | sums + 1 =>
    sumRun signs sums ++
      [operatorAt .add (2 * signs + 4 * sums + 3), oneAt (2 * signs + 4 * sums + 5)]

/-- What `- - … 1 + 1 + 1 …` denotes. -/
private def sumOf (signs : Nat) : Nat → Expr
  | 0 => signedFrom signs 1
  | sums + 1 =>
    .binary (.arithmetic .add) (sumOf signs sums) (oneFrom (2 * signs + 4 * sums + 5))
      ⟨1, 2 * signs + 4 * sums + 3⟩

/-- A single number is an operand by itself. -/
private theorem derives_oneAt (column : Nat) :
    Derives (.unary (oneFrom column)) 1 [oneAt column] :=
  .stepped (.primary (.number (t := oneAt column) (.inl rfl)))

/-- Every sign in front of a number is one more level of nesting. -/
private theorem derives_signedRun (signs column : Nat) :
    Derives (.unary (signedFrom signs column)) (signs + 1) (signedRun signs column) := by
  induction signs generalizing column with
  | zero => exact derives_oneAt column
  | succ signs ih => exact .minus (t := operatorAt .sub column) rfl (ih (column + 2))

/-- However many sums there are, they take no more than the two levels of one sum. -/
private theorem derives_sumRun (signs sums : Nat) :
    ∃ n ≤ max (signs + 1) 2, Derives (.tier 4 (sumOf signs sums)) n (sumRun signs sums) := by
  induction sums with
  | zero => exact ⟨signs + 1, by omega, (derives_signedRun signs 1).unary.loosen (by decide)⟩
  | succ sums ih =>
    obtain ⟨n, hn, hleft⟩ := ih
    have hright := (derives_oneAt (2 * signs + 4 * sums + 5)).unary.loosen (j := 5) (by decide)
    exact ⟨max n (1 + 1), by omega,
      hleft.binary (t := operatorAt .add (2 * signs + 4 * sums + 3)) (by decide) rfl hright⟩

/-- Sums in a row are read whatever their number. -/
private theorem parse_sumRun {signs : Nat} (hsigns : signs < maxNesting) (sums : Nat) :
    parse (sumRun signs sums) = .ok (sumOf signs sums) := by
  obtain ⟨n, hn, hderives⟩ := derives_sumRun signs sums
  have hlimit : n ≤ maxNesting := by
    simp only [maxNesting] at *
    omega
  have hread : Derives (.tier 0 (sumOf signs sums)) n (body (sumRun signs sums)) := by
    rw [body_eq_self hderives.ne_eof]
    exact hderives.loosen (Nat.zero_le 4)
  exact hread.parse.1 hlimit

/-- Signs are levels, and no links. -/
private theorem descent_signedFrom (level signs column : Nat) :
    (signedFrom signs column).descent 1 level = signs * level := by
  induction signs generalizing column with
  | zero => simp [signedFrom, oneFrom, descent]
  | succ signs ih => simp [signedFrom, descent, ih, Nat.succ_mul]

/-- The sums of a chain are links, and no levels. -/
private theorem descent_sumOf {level : Nat} (hlevel : level ≤ 1) (signs sums : Nat) :
    (sumOf signs sums).descent 1 level = signs * level + sums := by
  induction sums with
  | zero => exact descent_signedFrom level signs 1
  | succ sums ih =>
    simp only [sumOf, oneFrom, descent, ih]
    omega

/-- The tree of a chain of sums is as high as the chain is long, besides its signs. -/
private theorem height_sumOf (signs sums : Nat) : (sumOf signs sums).height = signs + sums + 1 := by
  simp [height, descent_sumOf]

/-- Every sum of the chain is a link. -/
private theorem chained_sumOf (signs sums : Nat) : (sumOf signs sums).chained = sums := by
  simp [chained, descent_sumOf]

/-- The bound is attained for chains of any length: there is no limit to the height of the trees that
are read. -/
theorem exists_parse_height (sums : Nat) :
    ∃ run e, parse run = .ok e ∧ e.chained = sums ∧ e.height = maxNesting + sums := by
  refine ⟨sumRun 127 sums, sumOf 127 sums, parse_sumRun (by decide) sums, chained_sumOf 127 sums, ?_⟩
  rw [height_sumOf, maxNesting]
  omega

/-- With 127 signs and five sums, the tree is as high as the limit and the chain allow. -/
theorem signedSums_height :
    parse (sumRun 127 5) = .ok (sumOf 127 5) ∧ (sumOf 127 5).chained = 5 ∧
      (sumOf 127 5).height = 133 ∧
      (sumOf 127 5).nesting ≤ maxNesting ∧
        (sumOf 127 5).height ≤ maxNesting + (sumOf 127 5).chained := by
  have hparse : parse (sumRun 127 5) = .ok (sumOf 127 5) := parse_sumRun (by decide) 5
  exact ⟨hparse, chained_sumOf 127 5, height_sumOf 127 5, height_le_of_parse hparse⟩

/-- The sum of 129 ones is read, and its tree is higher than the limit. -/
theorem ones_higher :
    parse (sumRun 0 128) = .ok (sumOf 0 128) ∧ maxNesting < (sumOf 0 128).height := by
  refine ⟨parse_sumRun (by decide) 128, ?_⟩
  rw [height_sumOf, maxNesting]
  omega

end Sprout.Expr
