import Sprout.Proofs.Parsing.Shapes

namespace Sprout.Expr

mutual
/-- An expression with all its positions forgotten. What is read from a generated text stands at
other positions than what it was generated from. -/
def unplaced : Expr → Expr
  | binary op left right _ => binary op (unplaced left) (unplaced right) .start
  | unary op operand _ => unary op (unplaced operand) .start
  | stepBefore op operand _ => stepBefore op (unplaced operand) .start
  | stepAfter op operand _ => stepAfter op (unplaced operand) .start
  | ident name _ => ident name .start
  | call name args _ => call name (unplacedAll args) .start
  | index receiver offset => index (unplaced receiver) (unplaced offset)
  | field receiver name _ => field (unplaced receiver) name .start
  | method receiver name args _ => method (unplaced receiver) name (unplacedAll args) .start
  | number value _ => number value .start
  | literal value _ => literal value .start
  | null _ => null .start
  | typeName name dimensions _ => typeName name (unplacedSizes dimensions) .start
  | convert name dimensions args _ =>
    convert name (unplacedSizes dimensions) (unplacedAll args) .start
  | array elements _ => array (unplacedAll elements) .start
/-- Several expressions with their positions forgotten. -/
def unplacedAll : List Expr → List Expr
  | [] => []
  | e :: es => unplaced e :: unplacedAll es
/-- Sizes with their positions forgotten. -/
def unplacedSizes : List (Option Expr) → List (Option Expr)
  | [] => []
  | none :: rest => none :: unplacedSizes rest
  | some size :: rest => some (unplaced size) :: unplacedSizes rest
end

/-- The phrase that a text of a precedence is read as: a tier of binary operators, or else an
operand. -/
def phraseOf (precedence : Nat) (e : Expr) : Phrase :=
  if precedence < unaryPrecedence then .tier (precedence - 1) e else .unary e

section Phrases

variable {e : Expr} {j k n : Nat} {ts : List Token}

/-- What binds tightly is an operand for looser operators too. -/
theorem Derives.phraseOf_mono (hjk : j ≤ k) (h : Derives (phraseOf k e) n ts) :
    Derives (phraseOf j e) n ts := by
  unfold phraseOf at *
  by_cases hj : j < unaryPrecedence
  · rw [if_pos hj]
    by_cases hk : k < unaryPrecedence
    · rw [if_pos hk] at h
      exact h.loosen (by omega)
    · rw [if_neg hk] at h
      have hlast : j - 1 ≤ tierCount := by
        simp only [unaryPrecedence, tierCount] at *
        omega
      exact h.unary.loosen hlast
  · rw [if_neg hj]
    rwa [if_neg (by omega)] at h

/-- An operand with nothing in front of it is one for every operator. -/
theorem Derives.phraseOf_stepped (h : Derives (.stepped e) n ts) (k : Nat) :
    Derives (phraseOf k e) n ts := by
  have hoperand : Derives (phraseOf (max k unaryPrecedence) e) n ts := by
    rw [phraseOf, if_neg (by omega)]
    exact h.stepped
  exact hoperand.phraseOf_mono (by omega)

end Phrases

/-- `Legible text k tree`: wherever something stops it, `text` is read as an expression of the
precedence `k`, which is `tree` up to positions. -/
structure Legible (text : List Char) (precedence : Nat) (tree : Expr) : Prop where
  opens : ∃ c rest, text = c :: rest ∧ c ≠ '='
  reads : ∀ p rest, Token.Stops rest → ∃ ts e n, Token.Scans p text rest ts ∧
    Derives (phraseOf precedence e) n ts ∧ e.unplaced = tree

/-- `Chained text tree`: wherever nothing goes on with a name, `text` is read as a name with what
follows it, which is `tree` up to positions. -/
structure Chained (text : List Char) (tree : Expr) : Prop where
  opens : ∃ c rest, text = c :: rest ∧ Token.isNameStart c = true
  reads : ∀ p rest, Token.Breaks rest → ∃ name ts e n, Token.Scans p text rest (name :: ts) ∧
    name.kind = .identifier ∧ Derives (.chain none name e) n ts ∧ e.unplaced = tree

section Operands

variable {text : List Char} {tree : Expr} {k : Nat}

/-- A blank, a closing parenthesis and a comma end a number and a name. -/
theorem stops_cons {c : Char} {rest : List Char} (h : c = ' ' ∨ c = ')' ∨ c = ',') :
    Token.Stops (c :: rest) := by
  intro d hd
  cases hd
  exact h

/-- What binds tightly is legible where less is asked for. -/
theorem Legible.mono {j : Nat} (h : Legible text k tree) (hjk : j ≤ k) : Legible text j tree := by
  refine ⟨h.opens, fun p rest hrest => ?_⟩
  obtain ⟨ts, e, n, hscans, hderives, htree⟩ := h.reads p rest hrest
  exact ⟨ts, e, n, hscans, hderives.phraseOf_mono hjk, htree⟩

/-- In parentheses, every expression is an operand for every operator. -/
theorem Legible.parenthesised (h : Legible text k tree) (j : Nat) :
    Legible ('(' :: (text ++ [')'])) j tree := by
  refine ⟨⟨'(', _, rfl, by decide⟩, fun p rest hrest => ?_⟩
  obtain ⟨ts, e, n, hscans, hderives, htree⟩ :=
    (h.mono (Nat.zero_le k)).reads (p.after ['(']) (')' :: rest) (stops_cons (by simp))
  have hopening : Token.Scans p ['('] (text ++ ([')'] ++ rest)) [⟨.openParen, "(", p⟩] := .openParen
  have hclosing : Token.Scans ((p.after ['(']).after text) [')'] rest _ := .closeParen
  have hinner := hscans.append hclosing
  rw [← List.append_assoc] at hopening
  refine ⟨_, e, n + 1, hopening.append hinner, ?_, htree⟩
  exact (Derives.parenthesised rfl rfl hderives).primary.phraseOf_stepped j

/-- The text of an operand has parentheses where it needs them. -/
theorem Legible.operand {typed : Typed} (h : Legible typed.text.toList typed.precedence tree)
    (j : Nat) : Legible (typed.operand j).toList j tree := by
  unfold Typed.operand
  split
  · simpa using h.parenthesised j
  · exact h.mono (by omega)

/-- A name with what follows it is an operand for every operator. -/
theorem Chained.legible (h : Chained text tree) (j : Nat) : Legible text j tree := by
  obtain ⟨c, more, htext, hstart⟩ := h.opens
  refine ⟨⟨c, more, htext, ?_⟩, fun p rest hrest => ?_⟩
  · rintro rfl
    revert hstart
    decide
  · obtain ⟨name, ts, e, n, hscans, hname, hderives, htree⟩ := h.reads p rest hrest.breaks
    exact ⟨_, e, n, hscans, (hderives.chain hname).primary.phraseOf_stepped j, htree⟩

end Operands

/-- A whole number of at most 64 bits is legible in decimal notation. -/
theorem Legible.number {n : Nat} (hn : Primitive.u64.holdsInteger n = true) (j : Nat) :
    Legible (Nat.toDigits 10 n) j (.number (.ofNat n) .start) := by
  have hdigits : ∀ c ∈ Nat.toDigits 10 n, c.isDigit = true := fun c hc =>
    Nat.isDigit_of_mem_toDigits (by decide) (by decide) hc
  refine ⟨?_, fun p rest hrest => ?_⟩
  · obtain ⟨c, more, hlist⟩ := List.exists_cons_of_ne_nil (Nat.toDigits_ne_nil (n := n) (b := 10))
    refine ⟨c, more, hlist, ?_⟩
    rintro rfl
    exact absurd (hdigits '=' (by simp [hlist])) (by decide)
  · refine ⟨_, _, 1, .wholeNumber Nat.toDigits_ne_nil hdigits hrest,
      (Derives.number (.inl rfl)).primary.phraseOf_stepped j, ?_⟩
    rw [unplaced, Number.ofLexeme_toDigits hn]

/-- A truth value is legible as a word. -/
theorem Legible.truth (c : Char) (more : List Char) (hstart : Token.isNameStart c = true)
    (hmore : ∀ d ∈ more, Token.isNamePart d = true)
    (hkind : Token.wordKind (String.ofList (c :: more)) = .bool) (j : Nat) :
    Legible (c :: more) j
      (.literal (.bool (String.ofList (c :: more) = "true")) .start) := by
  refine ⟨⟨c, more, rfl, ?_⟩, fun p rest hrest => ?_⟩
  · rintro rfl
    revert hstart
    decide
  · have hscans := Token.Scans.word hstart hmore hrest.breaks (p := p)
    rw [hkind] at hscans
    exact ⟨_, _, 1, hscans, (Derives.bool rfl).primary.phraseOf_stepped j, rfl⟩

/-- A truth value is read back from its word. -/
theorem Legible.bool (value : Bool) (j : Nat) :
    Legible (if value then "true" else "false").toList j (.literal (.bool value) .start) := by
  cases value with
  | true => exact .truth 't' ['r', 'u', 'e'] rfl (List.all_eq_true.1 rfl) rfl j
  | false => exact .truth 'f' ['a', 'l', 's', 'e'] rfl (List.all_eq_true.1 rfl) rfl j

/-- A name is read back as the start of a chain. -/
theorem Chained.name {name : String} (hname : Token.IsName name) :
    Chained name.toList (.ident name .start) := by
  refine ⟨?_, fun p rest hrest => ?_⟩
  · obtain ⟨c, more, rfl, hstart, -⟩ := hname.spelled
    exact ⟨c, more, by simp, hstart⟩
  · exact ⟨_, [], _, _, .name hname hrest, rfl, .link .noArguments .noIndex .noMember, rfl⟩

section Operators

/-- A sign in front of an operand is one more level of nesting. -/
theorem Derives.signed {op : UnaryOp} {e : Expr} {t : Token} {n : Nat} {ts : List Token}
    (h : Derives (.unary e) n ts) (ht : t.kind = Token.unaryKind op) :
    Derives (.unary (.unary op e t.position)) (n + 1) (t :: ts) := by
  cases op with
  | plus => exact .plus ht h
  | minus => exact .minus ht h
  | not => exact .not ht h

variable {text : List Char} {tree : Expr} {k : Nat}

/-- A unary operator in front of a text that does not start with a sign. -/
theorem Legible.unary (op : UnaryOp) (h : Legible text unaryPrecedence tree)
    (hsign : ∀ c ∈ text.head?, c ≠ '+' ∧ c ≠ '-') :
    Legible (op.symbol.toList ++ text) unaryPrecedence (.unary op tree .start) := by
  obtain ⟨c, more, rfl, hequal⟩ := h.opens
  obtain ⟨hplus, hminus⟩ := hsign c rfl
  refine ⟨by cases op <;> exact ⟨_, _, rfl, by decide⟩, fun p rest hrest => ?_⟩
  obtain ⟨ts, e, n, hscans, hderives, rfl⟩ := h.reads (p.after op.symbol.toList) rest hrest
  have hop : Token.Scans p op.symbol.toList (c :: more ++ rest) _ :=
    .unary op (by simp [hplus, hminus, hequal])
  refine ⟨_, .unary op e p, n + 1, hop.append hscans, ?_, rfl⟩
  rw [phraseOf, if_neg (by omega)] at hderives ⊢
  exact hderives.signed (t := ⟨Token.unaryKind op, op.symbol, p⟩) rfl

/-- A step in front of a chain is read back as a step. -/
theorem Chained.stepBefore (op : StepOp) (h : Chained text tree) :
    Legible (op.symbol.toList ++ text) unaryPrecedence (.stepBefore op tree .start) := by
  refine ⟨by cases op <;> exact ⟨_, _, rfl, by decide⟩, fun p rest hrest => ?_⟩
  obtain ⟨ts, e, n, hscans, hderives, rfl⟩ :=
    (h.legible unaryPrecedence).reads (p.after op.symbol.toList) rest hrest
  refine ⟨_, .stepBefore op e p, n + 1, (Token.Scans.step op).append hscans, ?_, rfl⟩
  rw [phraseOf, if_neg (by omega)] at hderives ⊢
  exact Derives.stepBefore (t := ⟨.step op, op.symbol, p⟩) rfl hderives

/-- A step behind a chain is read back as a step. -/
theorem Chained.stepAfter (op : StepOp) (h : Chained text tree) (j : Nat) :
    Legible (text ++ op.symbol.toList) j (.stepAfter op tree .start) := by
  obtain ⟨c, more, rfl, hstart⟩ := h.opens
  refine ⟨⟨c, _, rfl, ?_⟩, fun p rest hrest => ?_⟩
  · rintro rfl
    revert hstart
    decide
  · have hbreaks : Token.Breaks (op.symbol.toList ++ rest) := by
      intro d hd
      cases op <;> cases hd <;> decide
    obtain ⟨name, ts, e, n, hscans, hname, hderives, rfl⟩ := h.reads p _ hbreaks
    refine ⟨_, .stepAfter op e (p.after (c :: more)), n, hscans.append (.step op), ?_, rfl⟩
    have hstep := Derives.stepAfter (t := ⟨.step op, op.symbol, p.after (c :: more)⟩) rfl
      (hderives.chain hname).primary
    exact hstep.phraseOf_stepped j

/-- A binary operator between two operands, of which the left one may have the same precedence. -/
theorem Legible.binary {op : BinaryOp} {left right : List Char} {leftTree rightTree : Expr}
    (hop : op.precedence + 1 < unaryPrecedence) (hleft : Legible left op.precedence leftTree)
    (hright : Legible right (op.precedence + 1) rightTree) :
    Legible (left ++ ' ' :: (op.symbol.toList ++ ' ' :: right)) op.precedence
      (.binary op leftTree rightTree .start) := by
  obtain ⟨c, more, hopens, hequal⟩ := hleft.opens
  refine ⟨⟨c, _, by rw [hopens]; rfl, hequal⟩, fun p rest hrest => ?_⟩
  obtain ⟨ts, l, m, hscansLeft, hderivesLeft, rfl⟩ :=
    hleft.reads p (' ' :: (op.symbol.toList ++ ' ' :: right) ++ rest) (stops_cons (.inl rfl))
  obtain ⟨us, r, n, hscansRight, hderivesRight, rfl⟩ := hright.reads
    ((((p.after left).after [' ']).after op.symbol.toList).after [' ']) rest hrest
  have hscansOp : Token.Scans ((p.after left).after [' ']) op.symbol.toList
      ([' '] ++ right ++ rest) [⟨.operator op, op.symbol, _⟩] := .operator op
  have hscans := hscansLeft.append ((Token.Scans.blank (c := ' ') rfl).append
    (hscansOp.append ((Token.Scans.blank (c := ' ') rfl).append hscansRight)))
  refine ⟨_, .binary op l r ((p.after left).after [' ']), max m (n + 1), hscans, ?_, rfl⟩
  have hpos := op.precedence_bounds.1
  rw [phraseOf, if_pos (by omega)] at hderivesLeft ⊢
  rw [phraseOf, if_pos hop] at hderivesRight
  have htier : op ∈ tier (op.precedence - 1) := mem_tier_iff.2 (by omega)
  have hright : Derives (.tier (op.precedence - 1 + 1) r) n us := by
    rwa [show op.precedence - 1 + 1 = op.precedence + 1 - 1 by omega]
  exact Derives.binary (t := ⟨.operator op, op.symbol, (p.after left).after [' ']⟩) htier rfl
    hderivesLeft hright

end Operators

/-- Whether the texts of arguments are legible as the given trees. -/
def LegibleAll (args : List Typed) (trees : List Expr) : Prop :=
  List.Forall₂ (fun arg tree => Legible arg.text.toList arg.precedence tree) args trees

/-- Arguments between commas are read as a list, by induction on the arguments. A comma ends each,
and the parenthesis behind them the last one. -/
theorem list_legible {arg : Typed} {tree : Expr} {args : List Typed} {trees : List Expr}
    (harg : Legible arg.text.toList arg.precedence tree) (hargs : LegibleAll args trees)
    (p : Position) (rest : List Char) :
    ∃ ts es n, Token.Scans p (Typed.argumentText (arg :: args)).toList (')' :: rest) ts ∧
      Derives (.list es) n ts ∧ unplacedAll es = tree :: trees := by
  induction hargs generalizing arg tree p with
  | nil =>
    obtain ⟨ts, e, n, hscans, hderives, rfl⟩ :=
      (harg.mono (Nat.zero_le _)).reads p (')' :: rest) (stops_cons (by simp))
    refine ⟨ts, [e], n + 1, ?_, .last hderives, rfl⟩
    simpa [Typed.argumentText] using hscans
  | @cons next nextTree args trees hnext hargs ih =>
    have htext : (Typed.argumentText (arg :: next :: args)).toList =
        arg.text.toList ++ ([','] ++ ([' '] ++ (Typed.argumentText (next :: args)).toList)) := by
      simp [Typed.argumentText, String.intercalate_cons_cons]
    obtain ⟨us, es, n, hscansTail, hderivesTail, htrees⟩ :=
      ih hnext (((p.after arg.text.toList).after [',']).after [' '])
    obtain ⟨ts, e, m, hscans, hderives, rfl⟩ := (harg.mono (Nat.zero_le _)).reads p
      ([','] ++ ([' '] ++ (Typed.argumentText (next :: args)).toList) ++ (')' :: rest))
      (stops_cons (by simp))
    rw [htext]
    have hcomma : (⟨.comma, ",", p.after arg.text.toList⟩ : Token).kind = .comma := rfl
    refine ⟨_, e :: es, max (m + 1) n, hscans.append (Token.Scans.comma.append
      ((Token.Scans.blank (c := ' ') rfl).append hscansTail)), ?_, by rw [unplacedAll, htrees]⟩
    exact .more hcomma hderives hderivesTail

/-- Arguments that can be read back are read back as a list, each behind a comma. -/
theorem items_legible {args : List Typed} {trees : List Expr} (hargs : LegibleAll args trees)
    (p : Position) (rest : List Char) :
    ∃ ts es n, Token.Scans p (Typed.argumentText args).toList (')' :: rest) ts ∧
      Derives (.items es) n ts ∧ unplacedAll es = trees := by
  cases hargs with
  | nil =>
    exact ⟨[], [], 1, .nil, .noItems, rfl⟩
  | cons harg hargs =>
    obtain ⟨ts, es, n, hscans, hderives, htrees⟩ := list_legible harg hargs p rest
    exact ⟨ts, es, n, hscans, .items hderives, htrees⟩

/-- Arguments between parentheses are read back as the arguments of a call. -/
theorem arguments_legible {args : List Typed} {trees : List Expr} (hargs : LegibleAll args trees)
    (p : Position) (rest : List Char) :
    ∃ ts es n, Token.Scans p (['('] ++ ((Typed.argumentText args).toList ++ [')'])) rest ts ∧
      Derives (.arguments (some es)) n ts ∧ unplacedAll es = trees := by
  obtain ⟨ts, es, n, hscans, hitems, htrees⟩ := items_legible hargs (p.after ['(']) rest
  have hopening : (⟨.openParen, "(", p⟩ : Token).kind = .openParen := rfl
  have hclosing : (⟨.closeParen, ")", (p.after ['(']).after (Typed.argumentText args).toList⟩ :
    Token).kind = .closeParen := rfl
  have hscansClosing : Token.Scans ((p.after ['(']).after (Typed.argumentText args).toList) [')']
    rest _ := .closeParen
  exact ⟨_, es, n, Token.Scans.openParen.append (hscans.append hscansClosing),
    .arguments hopening hclosing hitems, htrees⟩

/-- A name with what follows it can be continued by a call of a member. -/
theorem Chained.method {text : List Char} {tree : Expr} {name : String} {args : List Typed}
    {trees : List Expr} (h : Chained text tree) (hname : Token.IsName name)
    (hargs : LegibleAll args trees) :
    Chained (text ++ (['.'] ++ (name.toList ++ (['('] ++
      ((Typed.argumentText args).toList ++ [')'])))))
      (.method tree name trees .start) := by
  obtain ⟨c, more, htext, hstart⟩ := h.opens
  refine ⟨⟨c, _, by rw [htext]; rfl, hstart⟩, fun p rest _ => ?_⟩
  obtain ⟨first, rs, receiver, m, hscansReceiver, hfirst, hreceiver, rfl⟩ := h.reads p
    (['.'] ++ (name.toList ++ (['('] ++ ((Typed.argumentText args).toList ++ [')']))) ++ rest)
    (by intro d hd; cases hd; decide)
  obtain ⟨vs, es, n, hscansArgs, hderivesArgs, rfl⟩ :=
    arguments_legible hargs (((p.after text).after ['.']).after name.toList) rest
  have hscansName : Token.Scans ((p.after text).after ['.']) name.toList
      (['('] ++ ((Typed.argumentText args).toList ++ [')']) ++ rest) _ :=
    .name hname (by intro d hd; cases hd; decide)
  have hscansDot : Token.Scans (p.after text) ['.']
      (name.toList ++ (['('] ++ ((Typed.argumentText args).toList ++ [')'])) ++ rest)
      [⟨.dot, ".", p.after text⟩] := by
    refine .dot ?_
    obtain ⟨d, others, rfl, hletter, -⟩ := hname.spelled
    simpa using Token.not_isDigit_of_isNameStart hletter
  have hscans := hscansReceiver.append (hscansDot.append (hscansName.append hscansArgs))
  have hpoint : (⟨.dot, ".", p.after text⟩ : Token).kind = .dot := rfl
  have hown : (⟨.identifier, name, (p.after text).after ['.']⟩ : Token).kind = .identifier := rfl
  obtain ⟨l, hchain⟩ := hreceiver.extends hpoint hown hderivesArgs
  exact ⟨first, _, _, l, hscans, hfirst, hchain, rfl⟩

end Sprout.Expr
