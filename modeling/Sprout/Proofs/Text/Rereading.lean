import Sprout.Proofs.Parsing.Completeness
import Sprout.Proofs.Text.Legible
import Sprout.Proofs.Typing.Steps

namespace Sprout

namespace Number

/-- A whole number below the 63rd power of two is written as its digits, without a suffix. -/
theorem toList_target {type : Primitive} {value : Int}
    (hread : ∃ n, Number.integer type value = .ofNat n) (hhigh : value < Int.pow 2 63) :
    ∃ n : Nat, Number.integer type value = .ofNat n ∧ Primitive.u64.holdsInteger n = true ∧
      (Number.integer type value).target.toList = Nat.toDigits 10 n := by
  obtain ⟨n, hn⟩ := hread
  have hlimit : Int.pow 2 63 = 9223372036854775808 := rfl
  have hi64 : Primitive.i64.integerRange = some (-9223372036854775808, 9223372036854775807) := rfl
  have hu64 : Primitive.u64.integerRange = some (0, 18446744073709551615) := rfl
  refine ⟨n, hn, ?_⟩
  rw [ofNat] at hn
  split at hn
  · cases hn
    refine ⟨by simp [Primitive.holdsInteger, hu64]; omega, ?_⟩
    simp [target, render, Int.repr_eq_if]
  · split at hn
    · cases hn
      refine ⟨by simp [Primitive.holdsInteger, hu64]; omega, ?_⟩
      simp [target, render, Int.repr_eq_if]
    · rename_i hi64'
      cases hn
      simp [Primitive.holdsInteger, hi64] at hi64'
      omega

end Number

namespace Expr

mutual
/-- An expression with each index written as a call of the method `at`, which is how the generated
text has it. Everything else of it is written there as in the source. -/
def viaAt : Expr → Expr
  | binary op left right p => binary op (viaAt left) (viaAt right) p
  | unary op operand p => unary op (viaAt operand) p
  | stepBefore op operand p => stepBefore op (viaAt operand) p
  | stepAfter op operand p => stepAfter op (viaAt operand) p
  | ident name p => ident name p
  | call name args p => call name (viaAtAll args) p
  | index receiver offset => method (viaAt receiver) "at" [viaAt offset] offset.position
  | field receiver name p => field (viaAt receiver) name p
  | method receiver name args p => method (viaAt receiver) name (viaAtAll args) p
  | number value p => number value p
  | literal value p => literal value p
  | null p => null p
  | typeName name dimensions p => typeName name (viaAtSizes dimensions) p
  | convert name dimensions args p => convert name (viaAtSizes dimensions) (viaAtAll args) p
  | array elements p => array (viaAtAll elements) p
/-- Several expressions with each index written as a call. -/
def viaAtAll : List Expr → List Expr
  | [] => []
  | e :: es => viaAt e :: viaAtAll es
/-- Sizes with each index written as a call. -/
def viaAtSizes : List (Option Expr) → List (Option Expr)
  | [] => []
  | none :: rest => none :: viaAtSizes rest
  | some size :: rest => some (viaAt size) :: viaAtSizes rest
end

/-- The expressions that the generated program writes as the source does: whole numbers without a
suffix, truth values, variables that keep their name, with elements and methods of theirs, and
operators other than remainder and power. The length of a string has another name there. -/
inductive Portable (scopes : Scopes) : Expr → Prop
  | number {type value position} (hlow : 0 ≤ value) (hhigh : value < Int.pow 2 63) :
      Portable scopes (.number (.integer type value) position)
  | bool {value position} : Portable scopes (.literal (.bool value) position)
  | ident {name position} (hname : Target.name name = name) :
      Portable scopes (.ident name position)
  | index {receiver offset} (hreceiver : Portable scopes receiver)
      (hoffset : Portable scopes offset) : Portable scopes (.index receiver offset)
  | method {receiver name args position} (hreceiver : Portable scopes receiver)
      (hargs : ∀ arg ∈ args, Portable scopes arg)
      (hlen : name = "len" → ∀ typed, (receiver.value scopes).outcome = .ok typed →
        typed.type ≠ .str) :
      Portable scopes (.method receiver name args position)
  | unary {op operand position} (hoperand : Portable scopes operand) :
      Portable scopes (.unary op operand position)
  | stepBefore {op operand position} (hoperand : Portable scopes operand) :
      Portable scopes (.stepBefore op operand position)
  | stepAfter {op operand position} (hoperand : Portable scopes operand) :
      Portable scopes (.stepAfter op operand position)
  | binary {op left right position} (hmod : op ≠ .arithmetic .mod) (hpow : op ≠ .arithmetic .pow)
      (hleft : Portable scopes left) (hright : Portable scopes right) :
      Portable scopes (.binary op left right position)

variable {scopes : Scopes} {n : Expr} {typed : Typed}

/-- Only names and what follows them stand for places. -/
theorem Portable.isChain_of_place (hportable : Portable scopes n)
    (h : (n.value scopes).outcome = .ok typed) (hplace : typed.place.isSome = true) :
    n.isChain = true := by
  cases ValueStep.of_value h with
  | ident | index | method => rfl
  | number | literal =>
    cases hportable
    cases h
    cases hplace
  | call | convert => cases hportable
  | unary _ hunary =>
    obtain ⟨_, -, -, -, hnone⟩ := Typed.applyUnary_eq_ok hunary
    simp [hnone] at hplace
  | stepBefore _ hstep | stepAfter _ hstep =>
    obtain ⟨-, -, -, -, hnone⟩ := Typed.applyStep_eq_ok hstep
    simp [hnone] at hplace
  | binary _ _ hbinary => simp [(Typed.applyBinary_eq_ok hbinary).2] at hplace

/-- What the text of an expression with a given tree is worth: it is legible, and if the expression
starts with a name, a member can follow it. -/
structure Rereads (n : Expr) (typed : Typed) : Prop where
  legible : Legible typed.text.toList typed.precedence n.viaAt.unplaced
  chained : n.isChain = true →
    Chained typed.text.toList n.viaAt.unplaced ∧ typed.precedence = atomPrecedence

/-- A name with what follows it is legible as an operand. -/
theorem Rereads.of_chained (h : Chained typed.text.toList n.viaAt.unplaced)
    (hatom : typed.precedence = atomPrecedence) : Rereads n typed :=
  ⟨h.legible _, fun _ => ⟨h, hatom⟩⟩

/-- The text of a member behind its receiver. -/
theorem Chained.member {receiver : Typed} {tree : Expr} {trees : List Expr} {name : String}
    {args : List Typed} (h : Chained receiver.text.toList tree)
    (hatom : receiver.precedence = atomPrecedence) (hname : Token.IsName name)
    (hargs : LegibleAll args trees) :
    Chained (receiver.operand atomPrecedence ++ "." ++ name ++ "(" ++ Typed.argumentText args ++
      ")").toList (.method tree name trees .start) := by
  have hoperand : receiver.operand atomPrecedence = receiver.text := by
    rw [Typed.operand, hatom, if_neg (by omega)]
  have htext := h.method hname hargs
  simpa [hoperand] using htext

/-- The arguments of a call can be read back if each of them can. -/
theorem legibleAll_of_forall₂ {args : List Expr} {values : List Typed}
    (hvalues : List.Forall₂ (fun e typed => (e.value scopes).outcome = .ok typed) args values)
    (h : ∀ arg ∈ args, ∀ typed, (arg.value scopes).outcome = .ok typed → Rereads arg typed) :
    LegibleAll values (unplacedAll (viaAtAll args)) := by
  induction hvalues with
  | nil => exact .nil
  | cons hfirst _ ih =>
    rw [List.forall_mem_cons] at h
    exact .cons (h.1 _ hfirst).legible (ih h.2)

/-- Operators that are no calls stand between their operands. -/
theorem binaryText_eq {op : BinaryOp} {type : Ty} {left right : Typed}
    (hmod : op ≠ .arithmetic .mod) (hpow : op ≠ .arithmetic .pow) :
    Typed.binaryText op type left right =
      (left.operand op.precedence ++ " " ++ op.symbol ++ " " ++ right.operand (op.precedence + 1),
        op.precedence) := by
  unfold Typed.binaryText
  split
  · exact absurd rfl hmod
  · exact absurd rfl hpow
  · rfl

/-- All operators but the power bind less tightly than a sign. -/
theorem precedence_lt {op : BinaryOp} (hpow : op ≠ .arithmetic .pow) :
    op.precedence + 1 < unaryPrecedence := by
  rcases op with op | op | op <;> cases op <;> simp_all [BinaryOp.precedence, unaryPrecedence]

/-- The method that an element is found by is spelled as a name. -/
theorem isName_at : Token.IsName "at" :=
  ⟨⟨'a', ['t'], rfl, rfl, List.all_eq_true.1 rfl⟩, rfl⟩

variable {whole selected inner first second : Typed} {receiver offset operand left right : Expr}
  {position p : Position}

/-- An element is read as a call of `at` behind its receiver. -/
theorem Rereads.index (hreceiver : Rereads receiver whole) (hchain : receiver.isChain = true)
    (hoffset : Rereads offset selected)
    (h : (Typed.elementAt whole selected p).outcome = .ok typed) :
    Rereads (.index receiver offset) typed := by
  obtain ⟨htext, hatom, -⟩ := Typed.elementAt_eq_ok h
  obtain ⟨hchained, hwhole⟩ := hreceiver.chained hchain
  refine .of_chained ?_ hatom
  have hmember := hchained.member hwhole isName_at (.cons hoffset.legible .nil)
  rw [htext]
  simpa [Typed.argumentText, viaAt, unplaced, unplacedAll] using hmember

/-- A method other than the length of a string keeps its name. -/
theorem Rereads.method {name : String} {args : List Expr} {results : List Typed}
    (hreceiver : Rereads receiver whole) (hchain : receiver.isChain = true)
    (hname : Token.IsName name) (hlen : name = "len" → whole.type ≠ .str)
    (hargs : LegibleAll results (unplacedAll (viaAtAll args)))
    (h : (Typed.callMethod whole name results p).outcome = .ok typed) :
    Rereads (.method receiver name args position) typed := by
  obtain ⟨hchained, hwhole⟩ := hreceiver.chained hchain
  have hmember := hchained.member hwhole hname hargs
  rcases Typed.eq_of_callMethod h with
    ⟨offset, rfl, rfl, hselect⟩ | ⟨-, resolved, hresolved, -, rfl⟩
  · obtain ⟨htext, hatom, -⟩ := Typed.elementAt_eq_ok hselect
    refine .of_chained ?_ hatom
    rw [htext]
    simpa [Typed.argumentText, viaAt, unplaced] using hmember
  · refine .of_chained ?_ rfl
    rw [Signature.target_of_resolve hlen hresolved]
    exact hmember

/-- Two signs never run together: an operand that starts with one is put in parentheses. -/
theorem Rereads.unary {op : UnaryOp} (hoperand : Rereads operand inner)
    (h : (Typed.applyUnary op inner p).outcome = .ok typed) :
    Rereads (.unary op operand position) typed := by
  obtain ⟨text, htext, hsigned, hprecedence, -⟩ := Typed.applyUnary_eq_ok h
  have hlegible : Legible text.toList unaryPrecedence operand.viaAt.unplaced := by
    rw [htext]
    exact hoperand.legible.operand unaryPrecedence
  refine ⟨?_, by simp [isChain]⟩
  rw [hsigned, hprecedence, String.toList_append, viaAt, unplaced]
  split
  · refine .unary op ?_ (by simp)
    simpa using hlegible.parenthesised unaryPrecedence
  · rename_i hsign
    refine .unary op hlegible fun c hc => ?_
    rw [Option.mem_def] at hc
    constructor <;> rintro rfl <;> simp [hc] at hsign

/-- A step in front of a place is read back as the same step. -/
theorem Rereads.stepBefore {op : StepOp} (hoperand : Rereads operand inner)
    (hchain : operand.isChain = true)
    (h : (Typed.applyStep op false inner p).outcome = .ok typed) :
    Rereads (.stepBefore op operand position) typed := by
  obtain ⟨-, -, htext, hprecedence, -⟩ := Typed.applyStep_eq_ok h
  refine ⟨?_, by simp [isChain]⟩
  rw [htext, hprecedence]
  simpa [viaAt, unplaced] using (hoperand.chained hchain).1.stepBefore op

/-- A step behind a place is read back as the same step. -/
theorem Rereads.stepAfter {op : StepOp} (hoperand : Rereads operand inner)
    (hchain : operand.isChain = true)
    (h : (Typed.applyStep op true inner p).outcome = .ok typed) :
    Rereads (.stepAfter op operand position) typed := by
  obtain ⟨-, -, htext, hprecedence, -⟩ := Typed.applyStep_eq_ok h
  refine ⟨?_, by simp [isChain]⟩
  rw [htext, hprecedence]
  simpa [viaAt, unplaced] using (hoperand.chained hchain).1.stepAfter op atomPrecedence

/-- Looser operands are put in parentheses, and on the right equally loose ones too. -/
theorem Rereads.binary {op : BinaryOp} (hmod : op ≠ .arithmetic .mod) (hpow : op ≠ .arithmetic .pow)
    (hleft : Rereads left first) (hright : Rereads right second)
    (h : (Typed.applyBinary op first second p).outcome = .ok typed) :
    Rereads (.binary op left right position) typed := by
  obtain ⟨⟨type, htext⟩, -⟩ := Typed.applyBinary_eq_ok h
  rw [binaryText_eq hmod hpow, Prod.mk.injEq] at htext
  obtain ⟨htext, hprecedence⟩ := htext
  refine ⟨?_, by simp [isChain]⟩
  rw [htext, hprecedence]
  have hwhole := Legible.binary (precedence_lt hpow) (hleft.legible.operand op.precedence)
    (hright.legible.operand (op.precedence + 1))
  simpa [viaAt, unplaced] using hwhole

/-- The text of a portable expression is read as the expression it came from. By induction on it:
each step of typing puts legible texts together into a legible one, with parentheses where its
precedence asks for them. -/
theorem Portable.rereads (hportable : Portable scopes n) (hspelled : WellSpelled n)
    (hvalue : (n.value scopes).outcome = .ok typed) : Rereads n typed := by
  induction hportable generalizing typed with
  | @number type value position _ hhigh =>
    cases hvalue
    obtain ⟨m, hnumber, hfits, htext⟩ := Number.toList_target (hspelled _ .self) hhigh
    refine ⟨?_, by simp [isChain]⟩
    dsimp only
    rw [htext, viaAt, unplaced, hnumber]
    exact .number hfits _
  | @bool value position =>
    cases hvalue
    exact ⟨.bool value _, by simp [isChain]⟩
  | @ident name position hname =>
    obtain ⟨symbol, -, rfl⟩ := Typed.eq_of_ofName hvalue
    refine .of_chained ?_ rfl
    dsimp only
    rw [hname]
    exact .name (hspelled _ .self)
  | index _ _ ihreceiver ihoffset =>
    cases ValueStep.of_value hvalue with
    | index hwhole hselected helement =>
      have hreceiver := ihreceiver (hspelled.child (by simp [children])) hwhole
      have hoffset := ihoffset (hspelled.child (by simp [children])) hselected
      exact hreceiver.index (hspelled _ .self) hoffset helement
  | @method receiver name args position _ _ hlen ihreceiver ihargs =>
    cases ValueStep.of_value hvalue with
    | method hwhole hresults hcall =>
      obtain ⟨hchain, hname⟩ : receiver.isChain = true ∧ Token.IsName name := hspelled _ .self
      have hreceiver := ihreceiver (hspelled.child (by simp [children])) hwhole
      have hargs := legibleAll_of_forall₂ (forall₂_of_values hresults) fun arg harg _ htyped =>
        ihargs arg harg (hspelled.child (by simp [children, harg])) htyped
      exact hreceiver.method hchain hname (fun hname => hlen hname _ hwhole) hargs hcall
  | unary _ ih =>
    cases ValueStep.of_value hvalue with
    | unary hinner hunary => exact (ih (hspelled.child (by simp [children])) hinner).unary hunary
  | stepBefore hoperand ih =>
    cases ValueStep.of_value hvalue with
    | stepBefore hinner hstep =>
      have hchain := hoperand.isChain_of_place hinner (Typed.applyStep_eq_ok hstep).1
      exact (ih (hspelled.child (by simp [children])) hinner).stepBefore hchain hstep
  | stepAfter hoperand ih =>
    cases ValueStep.of_value hvalue with
    | stepAfter hinner hstep =>
      have hchain := hoperand.isChain_of_place hinner (Typed.applyStep_eq_ok hstep).1
      exact (ih (hspelled.child (by simp [children])) hinner).stepAfter hchain hstep
  | binary hmod hpow _ _ ihleft ihright =>
    cases ValueStep.of_value hvalue with
    | binary hfirst hsecond hbinary =>
      have hleft := ihleft (hspelled.child (by simp [children])) hfirst
      have hright := ihright (hspelled.child (by simp [children])) hsecond
      exact hleft.binary hmod hpow hright hbinary

/-- The text of a portable expression that was read from tokens of a source is cut into tokens, and
reading them gives the same expression again, up to positions and with indexes as calls of `at`; or
else parentheses and calls have made it too deep to be read. -/
theorem parse_text_of_value {source : Source} {tokens run : List Token}
    (htokens : source.tokens = .ok tokens) (hrun : ∀ t ∈ run, t ∈ tokens)
    (hparse : parse run = .ok n) (hportable : Portable scopes n)
    (hvalue : (n.value scopes).outcome = .ok typed) (name : String) :
    ∃ reread, (Source.mk name typed.text).tokens = .ok reread ∧
      (TooDeep (parse reread) ∨
        ∃ e, parse reread = .ok e ∧ e.unplaced = n.viaAt.unplaced) := by
  have hspelled : WellSpelled n := by
    obtain ⟨_, -, hderives⟩ := derives_of_parse hparse
    refine hderives.shaped fun t ht hkind => ?_
    have hmem : t ∈ run := List.takeWhile_subset _ ht
    exact Token.isName_of_mem_scan htokens t (hrun t hmem) hkind
  obtain ⟨ts, e, m, hscans, hderives, htree⟩ :=
    ((hportable.rereads hspelled hvalue).legible.mono (Nat.zero_le _)).reads .start [] .nil
  refine ⟨_, hscans.scan_eq, ?_⟩
  have hbody : body (ts ++ [⟨.eof, "", Position.start.after typed.text.toList⟩]) = ts := by
    rw [body, List.takeWhile_append_of_pos (by simpa using hderives.ne_eof)]
    simp
  have hsettles := Derives.parse (hbody ▸ hderives)
  by_cases hm : m ≤ maxNesting
  · exact .inr ⟨e, hsettles.1 hm, htree⟩
  · exact .inl (hsettles.2 hm)

/-- A vector `v` and a number `a`. -/
private def vectorScopes : Scopes :=
  { current := { kind := .main, symbols := [("v", ⟨.array (.primitive .i32) none, none, true⟩),
      ("a", ⟨.primitive .i32, none, true⟩)] } }

private def vectorSource : Source :=
  ⟨"vector", "a-(v[0]-(-(-a)))"⟩

private def vectorTokens : List Token :=
  [⟨.identifier, "a", ⟨1, 1⟩⟩, ⟨.operator (.arithmetic .sub), "-", ⟨1, 2⟩⟩,
    ⟨.openParen, "(", ⟨1, 3⟩⟩, ⟨.identifier, "v", ⟨1, 4⟩⟩, ⟨.openBracket, "[", ⟨1, 5⟩⟩,
    ⟨.integer, "0", ⟨1, 6⟩⟩, ⟨.closeBracket, "]", ⟨1, 7⟩⟩,
    ⟨.operator (.arithmetic .sub), "-", ⟨1, 8⟩⟩, ⟨.openParen, "(", ⟨1, 9⟩⟩,
    ⟨.operator (.arithmetic .sub), "-", ⟨1, 10⟩⟩, ⟨.openParen, "(", ⟨1, 11⟩⟩,
    ⟨.operator (.arithmetic .sub), "-", ⟨1, 12⟩⟩, ⟨.identifier, "a", ⟨1, 13⟩⟩,
    ⟨.closeParen, ")", ⟨1, 14⟩⟩, ⟨.closeParen, ")", ⟨1, 15⟩⟩, ⟨.closeParen, ")", ⟨1, 16⟩⟩,
    ⟨.eof, "", ⟨1, 17⟩⟩]

private def vectorTree : Expr :=
  .binary (.arithmetic .sub) (.ident "a" ⟨1, 1⟩)
    (.binary (.arithmetic .sub) (.index (.ident "v" ⟨1, 4⟩) (.number (.integer .i32 0) ⟨1, 6⟩))
      (.unary .minus (.unary .minus (.ident "a" ⟨1, 13⟩) ⟨1, 12⟩) ⟨1, 10⟩) ⟨1, 8⟩) ⟨1, 2⟩

private def vectorTyped : Typed :=
  { text := "a - (v.at(0) - -(-a))", type := .primitive .i32, precedence := 5 }

/-- Parentheses that the text needs are there: those around a right operand, and those that keep two
signs apart. -/
theorem parse_text_of_vectorTree :
    vectorSource.tokens = .ok vectorTokens ∧ parse vectorTokens = .ok vectorTree ∧
      Portable vectorScopes vectorTree ∧
      (vectorTree.value vectorScopes).outcome = .ok vectorTyped ∧
      ∃ reread, (Source.mk "text" vectorTyped.text).tokens = .ok reread ∧
        (TooDeep (parse reread) ∨
          ∃ e, parse reread = .ok e ∧ e.unplaced = vectorTree.viaAt.unplaced) := by
  have htokens : vectorSource.tokens = .ok vectorTokens := by cbv
  have hparse : parse vectorTokens = .ok vectorTree := by cbv
  have hportable : Portable vectorScopes vectorTree := by
    refine .binary (by simp) (by simp) (.ident (by decide)) (.binary (by simp) (by simp) ?_ ?_)
    · exact .index (.ident (by decide)) (.number (by decide) (by decide))
    · exact .unary (.unary (.ident (by decide)))
  have hvalue : (vectorTree.value vectorScopes).outcome = .ok vectorTyped := by rfl
  exact ⟨htokens, hparse, hportable, hvalue,
    parse_text_of_value htokens (fun t ht => ht) hparse hportable hvalue "text"⟩

end Expr

end Sprout
