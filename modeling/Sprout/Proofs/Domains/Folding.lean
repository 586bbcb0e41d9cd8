import Sprout.Proofs.Domains.Crashes
import Sprout.Proofs.Nulls
import Sprout.Proofs.Parsing.Soundness

namespace Sprout

/-- Whether a known value, if it is a whole number, has a size of at most 64 bits. Of the numbers of
128 bits one has no opposite, and a small value is never that one. -/
def Constant.IsSmall (c : Constant) : Prop :=
  ∀ value, c = .int value → value.natAbs < 2 ^ 64

/-- Every type of whole numbers has at most 64 bits, so what it holds is far from the ends of 128
bits. -/
theorem Primitive.natAbs_lt_of_holdsInteger {p : Primitive} {value : Int}
    (h : p.holdsInteger value = true) : value.natAbs < 2 ^ 64 := by
  cases p <;>
    simp [holdsInteger, integerRange, isInteger, isSigned, bits] at h <;> omega

/-- A whole number that a place holds is a value of its type: conversion to an integer type takes a
value only if it is in the range. -/
theorem Constant.exists_of_convert {c : Constant} {type : Ty} {value : Int}
    (h : c.convert type = some (.int value)) :
    ∃ p, type = .primitive p ∧ p.holdsInteger value = true := by
  unfold convert at h
  split at h
  · obtain ⟨_, -, heq⟩ := Option.map_eq_some_iff.1 h
    cases heq
  · obtain ⟨_, -, heq⟩ := Option.map_eq_some_iff.1 h
    cases heq
  · split at h <;> cases h
  · split at h
    · cases h
    · split at h <;> cases h
    · cases h
  · split at h <;> cases h
  · split at h
    · cases h
    · obtain ⟨hholds, heq⟩ := Option.ite_none_right_eq_some.1 h
      cases heq
      exact ⟨_, rfl, hholds⟩
  · cases h

/-- What a place holds is small. -/
theorem Constant.isSmall_of_convert {c converted : Constant} {type : Ty}
    (h : c.convert type = some converted) : converted.IsSmall := by
  rintro value rfl
  obtain ⟨p, -, hholds⟩ := exists_of_convert h
  exact Primitive.natAbs_lt_of_holdsInteger hholds

/-- A literal that is read as a whole number has at most 64 bits. A longer one is read as zero. -/
theorem Number.natAbs_lt_of_ofLexeme {kind : Token.Kind} {lexeme : String} {type : Primitive}
    {value : Int} (h : ofLexeme kind lexeme = .integer type value) : value.natAbs < 2 ^ 64 := by
  have hread : ∀ base text, (((readNat? base text).getD 0 : Nat) : Int).natAbs < 2 ^ 64 := by
    intro base text
    cases hnat : readNat? base text with
    | none => simp
    | some n =>
      unfold readNat? at hnat
      dsimp only at hnat
      split at hnat
      all_goals
        split at hnat
        · cases hnat
        · exact Primitive.natAbs_lt_of_holdsInteger (Option.filter_eq_some_iff.1 hnat).2
  have hvalue : ((integerValue lexeme.toList : Nat) : Int).natAbs < 2 ^ 64 := by
    unfold integerValue
    split <;> exact hread _ _
  unfold ofLexeme at h
  split at h
  · cases h
  · cases h
  · unfold ofNat at h
    split at h
    · cases h
      exact hvalue
    · split at h <;> cases h <;> exact hvalue

/-- A small number is not the one without an opposite. -/
theorem Constant.negate_eq {value : Int} (h : value.natAbs < 2 ^ 64) :
    fit (-value) = some (negate value) := by
  have hfit : -(limit : Int) ≤ -value ∧ -value < limit := by
    rw [limit]
    omega
  have hnegate : negate value = -value := by
    rw [negate, Int.bmod_eq_of_le] <;> rw [limit] at * <;> omega
  rw [fit, if_pos (by simpa using hfit), hnegate]

namespace Expr

/-- The whole numbers that stand anywhere in an expression are small. -/
def HasSmallNumbers (e : Expr) : Prop :=
  ∀ type value position, Within (.number (.integer type value) position) e → value.natAbs < 2 ^ 64

/-- The literals of a part are literals of the whole. -/
theorem HasSmallNumbers.child {e part : Expr} (h : HasSmallNumbers e) (hchild : part ∈ e.children) :
    HasSmallNumbers part :=
  fun _ _ _ hwithin => h _ _ _ (.child hchild hwithin)

/-- The literals of any part, however deep, are literals of the whole. -/
theorem HasSmallNumbers.within {part whole : Expr} (h : HasSmallNumbers whole)
    (hwithin : Within part whole) : HasSmallNumbers part := by
  induction hwithin with
  | self => exact h
  | child hchild _ ih => exact ih (h.child hchild)

/-- An expression that is no literal itself has the literals of its parts. -/
theorem HasSmallNumbers.mk {e : Expr} (hown : ∀ number position, e ≠ .number number position)
    (hparts : ∀ part ∈ e.children, HasSmallNumbers part) : HasSmallNumbers e := by
  intro type value position hwithin
  cases hwithin with
  | self => exact absurd rfl (hown _ _)
  | child hchild hwithin => exact hparts _ hchild type value position hwithin

/-- A name behind a dot has the literals of what stands in front of it and of its arguments. -/
theorem hasSmallNumbers_named {receiver : Option Expr} {name : Token} {args : Option (List Expr)}
    (hreceiver : ∀ whole, receiver = some whole → HasSmallNumbers whole)
    (hargs : ∀ es, args = some es → ∀ e ∈ es, HasSmallNumbers e) :
    HasSmallNumbers (named receiver name args) := by
  cases receiver <;> cases args <;> refine .mk (by simp [named]) ?_
  · simp [named, children]
  · simpa [named, children] using hargs
  · simpa [named, children] using hreceiver
  · simpa [named, children] using And.intro hreceiver hargs

/-- `ReadsSmall p`: the numbers in a phrase are small, if those in front of it are. -/
def ReadsSmall : Phrase → Prop
  | .tier _ e | .unary e | .stepped e | .primary e => HasSmallNumbers e
  | .chain receiver _ e => (∀ whole, receiver = some whole → HasSmallNumbers whole) →
    HasSmallNumbers e
  | .arguments args => ∀ es, args = some es → ∀ e ∈ es, HasSmallNumbers e
  | .indexes receiver e | .member receiver e => HasSmallNumbers receiver → HasSmallNumbers e
  | .dimensions sizes => ∀ e ∈ sizes.reduceOption, HasSmallNumbers e
  | .items es | .list es => ∀ e ∈ es, HasSmallNumbers e

/-- Whatever the grammar derives has the numbers of its tokens, which are small. By induction on the
derivation: only a number token makes a number, and it has at most 64 bits. -/
theorem Derives.readsSmall {p : Phrase} {n : Nat} {ts : List Token} (h : Derives p n ts) :
    ReadsSmall p := by
  induction h with
  | binary _ _ _ _ ihleft ihright => exact .mk (by simp) (by simpa [children] using ⟨ihleft, ihright⟩)
  | tighter _ ih | unary _ ih | stepped _ ih | primary _ ih | items _ ih => exact ih
  | plus _ _ ih | minus _ _ ih | not _ _ ih | stepBefore _ _ ih | stepAfter _ _ ih =>
    exact .mk (by simp) (List.forall_mem_singleton.2 ih)
  | @number t _ =>
    intro type value position hwithin
    generalize hnumber : Expr.number (.ofLexeme t.kind t.lexeme) t.position = e at hwithin
    cases hwithin with
    | self =>
      injection hnumber with hnumber
      exact Number.natAbs_lt_of_ofLexeme hnumber
    | child hchild =>
      rw [← hnumber] at hchild
      cases hchild
  | bool | string | char | null => exact .mk (by simp) (by simp [children])
  | chain _ _ ih => exact ih (by simp)
  | @type t name sizes args m n ts us ht _ _ ihsizes ihargs =>
    cases args with
    | none => exact .mk (by simp [typed]) ihsizes
    | some es =>
      refine .mk (by simp [typed]) ?_
      simp only [typed, children, List.forall_mem_append]
      exact ⟨ihargs es rfl, ihsizes⟩
  | parenthesised _ _ _ ih => exact ih
  | array _ _ _ ih => exact .mk (by simp) ih
  | link _ _ _ ihargs ihindexes ihmember =>
    exact fun hreceiver => ihmember (ihindexes (hasSmallNumbers_named hreceiver ihargs))
  | noArguments | noDimension | noItems => simp [ReadsSmall]
  | arguments _ _ _ ih =>
    intro es hes
    cases hes
    exact ih
  | noIndex | noMember => exact id
  | index _ _ _ _ ihoffset ih =>
    exact fun hreceiver => ih (.mk (by simp) (by simpa [children] using ⟨hreceiver, ihoffset⟩))
  | member _ _ _ ih =>
    intro hreceiver
    refine ih fun whole hwhole => ?_
    cases hwhole
    exact hreceiver
  | unsized _ _ _ ih => exact ih
  | sized _ _ _ _ ihsize ih =>
    simp only [ReadsSmall, List.reduceOption_cons_of_some, List.forall_mem_cons]
    exact ⟨ihsize, ih⟩
  | last _ ih => simpa [ReadsSmall] using ih
  | more _ _ _ ihhead ih =>
    simp only [ReadsSmall, List.forall_mem_cons]
    exact ⟨ihhead, ih⟩

/-- Whether an expression can be read from a run of tokens: as a whole, in a list, or as a size in a
type. -/
inductive IsRead (e : Expr) : Prop
  | whole {run : List Token} (h : parse run = .ok e)
  | listed {run : List Token} {es : List Expr} (h : parseList run = .ok es) (hmem : e ∈ es)
  | size {run : List Token} {type : Expr} (h : parseType run = .ok type)
    (hmem : e ∈ type.children)

/-- The numbers that are read are small. -/
theorem IsRead.hasSmallNumbers {e : Expr} (h : IsRead e) : HasSmallNumbers e := by
  cases h with
  | whole h =>
    obtain ⟨n, -, hderives⟩ := derives_of_parse h
    exact hderives.readsSmall
  | listed h hmem =>
    obtain ⟨n, -, hderives⟩ := derives_of_parseList h
    exact hderives.readsSmall e hmem
  | size h hmem =>
    obtain ⟨t, name, sizes, ts, -, -, rfl, n, -, hderives⟩ := derives_of_parseType h
    exact hderives.readsSmall e hmem

end Expr

/-- A symbol whose value, if it is a known whole number, is small. -/
def Symbol.HasSmallValue (symbol : Symbol) : Prop :=
  ∀ c, symbol.constant = some c → c.IsSmall

/-- An expression whose value, if it is a known whole number, is small. -/
def Typed.HasSmallValue (typed : Typed) : Prop :=
  ∀ c, typed.constant = some c → c.IsSmall

variable {scopes : Scopes} {e : Expr} {typed inner : Typed} {position : Position}

/-- A sign changes no size, and the other unary operators make no new number. So a small value stays
small under all of them. -/
theorem Constant.isSmall_of_foldUnary {op : UnaryOp} {c folded : Constant} (hsmall : c.IsSmall)
    (h : Typed.foldUnary op c = some folded) : folded.IsSmall := by
  unfold Typed.foldUnary at h
  split at h
  · cases h
    exact hsmall
  · rename_i value
    cases h
    rintro opposite heq
    cases heq
    have hvalue := hsmall value rfl
    have hfit := Constant.negate_eq hvalue
    unfold Constant.fit at hfit
    split at hfit
    · have hopposite := Option.some.inj hfit
      omega
    · cases hfit
  · cases h
    rintro value heq
    cases heq
  · cases h
    rintro value heq
    cases heq
  · cases h

namespace Expr

/-- What holds of all values that are no whole numbers, and of all that places hold, holds of the
known value of an expression without a sign in front, if it holds of numbers and symbols. -/
theorem known_of_value {P : Constant → Ty → Prop} (hother : ∀ c type, (∀ v, c ≠ .int v) → P c type)
    (hconvert : ∀ (c converted : Constant) (type : Ty), c.convert type = some converted →
      P converted type)
    (hnumber : ∀ type v position, e = .number (.integer type v) position →
      P (.int v) (.primitive type))
    (hscopes : scopes.Every fun symbol => ∀ c, symbol.constant = some c → P c symbol.type)
    (hplus : ∀ inner position, e ≠ .unary .plus inner position)
    (hminus : ∀ inner position, e ≠ .unary .minus inner position)
    (h : (e.value scopes).outcome = .ok typed) : ∀ c, typed.constant = some c → P c typed.type := by
  have hnone : typed.constant = none → ∀ c, typed.constant = some c → P c typed.type := by
    intro hnone c hc
    rw [hnone] at hc
    cases hc
  cases ValueStep.of_value h with
  | @number n position hvalue =>
    cases n with
    | integer type value =>
      cases hvalue
      rintro c hc
      cases hc
      exact hnumber type value position rfl
    | single x | double x =>
      simp only [Typed.ofNumber] at hvalue
      split at hvalue
      · cases hvalue
        rintro c hc
        cases hc
        exact hother _ _ (by simp)
      · simp at hvalue
  | literal hliteral =>
    rintro c hc
    rcases Typed.eq_of_ofLiteral hliteral with ⟨_, -, rfl⟩ | ⟨_, -, -, rfl⟩ | ⟨_, -, rfl⟩ <;>
      cases hc <;> exact hother _ _ (by simp)
  | ident hname =>
    obtain ⟨symbol, hsymbol, rfl⟩ := Typed.eq_of_ofName hname
    exact hscopes.lookup hsymbol
  | call _ hcall =>
    obtain ⟨resolved, -, rfl⟩ := Typed.eq_of_callFunction hcall
    exact hnone rfl
  | index _ _ hselect =>
    obtain ⟨-, element, -, rfl⟩ := Typed.eq_of_elementAt hselect
    exact hnone rfl
  | method _ _ hcall =>
    rcases Typed.eq_of_callMethod hcall with ⟨offset, -, -, hselect⟩ | ⟨-, resolved, -, -, rfl⟩
    · obtain ⟨-, element, -, rfl⟩ := Typed.eq_of_elementAt hselect
      exact hnone rfl
    · exact hnone rfl
  | convert _ hconverts =>
    -- A conversion, like an operator below, converts what it knows to its own type.
    obtain ⟨resolved, -, rfl⟩ := Typed.eq_of_convert hconverts
    intro c hc
    obtain ⟨own, -, hconverted⟩ := Option.bind_eq_some_iff.1 hc
    exact hconvert _ _ _ hconverted
  | @unary op operand position _ _ hunary =>
    cases op with
    | plus => exact absurd rfl (hplus operand position)
    | minus => exact absurd rfl (hminus operand position)
    | not =>
      obtain ⟨-, rfl⟩ := Typed.eq_of_applyUnary hunary
      rintro c hc
      obtain ⟨known, -, hfolded⟩ := Option.bind_eq_some_iff.1 hc
      cases known with
      | bool =>
        cases hfolded
        exact hother _ _ (by simp)
      | int | float | char | str => cases hfolded
  | stepBefore _ hstep | stepAfter _ hstep =>
    obtain ⟨-, -, -, rfl⟩ := Typed.eq_of_applyStep hstep
    exact hnone rfl
  | binary _ _ hbinary =>
    obtain ⟨type, -, rfl⟩ := Typed.eq_of_applyBinary hbinary
    intro c hc
    dsimp only at hc
    split at hc
    · obtain ⟨folded, -, hconverted⟩ := Option.bind_eq_some_iff.1 hc
      exact hconvert _ _ _ hconverted
    · cases hc

/-- Wherever the values of the symbols are small, those of all expressions are, by induction on the
expression: what is not a sign, a number or a symbol was converted to its type. -/
theorem hasSmallValue_of_value (hscopes : scopes.Every Symbol.HasSmallValue)
    (hnumbers : e.HasSmallNumbers) (h : (e.value scopes).outcome = .ok typed) :
    typed.HasSmallValue := by
  induction e using inductionOnChildren generalizing typed with
  | step e ih =>
    by_cases hunary : ∃ op operand p, e = .unary op operand p
    · obtain ⟨op, operand, p, rfl⟩ := hunary
      cases ValueStep.of_value h with
      | unary hinner happly =>
        have hsmall := ih operand (by simp [children]) (hnumbers.child (by simp [children])) hinner
        obtain ⟨-, rfl⟩ := Typed.eq_of_applyUnary happly
        intro c hc
        obtain ⟨own, hown, hfolded⟩ := Option.bind_eq_some_iff.1 hc
        exact Constant.isSmall_of_foldUnary (hsmall own hown) hfolded
    · refine known_of_value (P := fun c _ => c.IsSmall) ?_ ?_ ?_ hscopes ?_ ?_ h
      · exact fun c _ hother v hv => absurd hv (hother v)
      · exact fun _ _ _ => Constant.isSmall_of_convert
      · rintro type v position rfl w hw
        cases hw
        exact hnumbers type v position .self
      · exact fun operand p he => hunary ⟨_, operand, p, he⟩
      · exact fun operand p he => hunary ⟨_, operand, p, he⟩

end Expr

/-- The value of a constant is converted to its type. Default values and the members of a call are
never known, so it comes from an initial value. -/
theorem Declaration.converted_of_plan {scopes : Scopes} {d : Declaration} {plan : Plan}
    (h : (d.plan scopes).outcome = .ok plan) :
    ∀ b ∈ plan.bindings, ∀ c, b.constant = some c → ∃ known : Constant, known.convert b.type = some c := by
  obtain ⟨type, -, hcases⟩ := plan_cases h
  rcases hcases with ⟨-, hplan⟩ | ⟨call, members, position, -, hplan⟩ | ⟨first, -, hplan⟩
  · obtain ⟨own, -, rfl⟩ := eq_of_planDefault hplan
    simp
  · intro b hb c hc
    obtain ⟨name, -, member, -, rfl⟩ := exists_of_mem_planUnpacked hplan b hb
    cases hc
  · obtain ⟨-, values, -, hnames⟩ := planInitialized_eq_ok hplan
    intro b hb c hc
    obtain ⟨name, ⟨e, value⟩, -, line, hname⟩ := exists_of_mem_planNames hnames b hb
    obtain ⟨own, text, -, -, -, rfl⟩ := eq_of_planName hname
    dsimp only at hc
    split at hc
    · obtain ⟨known, -, hconverted⟩ := Option.bind_eq_some_iff.1 hc
      exact ⟨known, hconverted⟩
    · cases hc

/-- Wherever a run has got to, what holds of all that places hold holds of the values of all
constants, for they are converted to their types. -/
theorem Emission.constants_of_run {P : Constant → Ty → Prop} {statements : List Statement}
    {deny : Bool} {e : Emission}
    (hconvert : ∀ (c converted : Constant) (type : Ty), c.convert type = some converted →
      P converted type)
    (h : run deny {} statements = .ok e) :
    e.scopes.Every fun symbol => ∀ c, symbol.constant = some c → P c symbol.type := by
  have hgrants : Grants fun symbol => ∀ c, symbol.constant = some c → P c symbol.type :=
    ⟨by simp, fun type _ => by simp⟩
  refine (keeps_empty.run hgrants (fun s _ scopes _ d plan _ _ hplan b hb => ?_) h).scopes
  have hconverted := Declaration.converted_of_plan hplan b hb
  unfold Binding.symbol
  split
  · rename_i value hvalue
    intro c hc
    cases hc
    obtain ⟨known, hknown⟩ := hconverted value hvalue
    exact hconvert _ _ _ hknown
  · simp

/-- Wherever a run has got to, the values of all symbols are small. They are converted to the types
of their constants, which hold no others. -/
theorem Emission.hasSmallValues_of_run {statements : List Statement} {deny : Bool} {e : Emission}
    (h : run deny {} statements = .ok e) : e.scopes.Every Symbol.HasSmallValue :=
  constants_of_run (P := fun c _ => c.IsSmall) (fun _ _ _ => Constant.isSmall_of_convert) h

end Sprout
