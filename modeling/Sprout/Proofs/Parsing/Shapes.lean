import Sprout.Proofs.Lexing
import Sprout.Proofs.Parsing.Grammar
import Sprout.Proofs.Typing.Parts

namespace Sprout.Expr

/-- Whether an expression starts with a name. In what can be read, indexes and members stand behind
names only. -/
def isChain : Expr → Bool
  | ident .. | call .. | index .. | field .. | method .. => true
  | _ => false

/-- What holds of a single expression that was read, its parts aside. -/
def Spelled : Expr → Prop
  | number (.integer type value) _ => ∃ n, Number.integer type value = .ofNat n
  | ident name _ => Token.IsName name
  | index receiver _ => receiver.isChain = true
  | method receiver name _ _ => receiver.isChain = true ∧ Token.IsName name
  | _ => True

/-- Whether an expression could have been read, as far as its names, numbers and members go. -/
def WellSpelled (e : Expr) : Prop :=
  ∀ part, Within part e → Spelled part

/-- An expression is well spelled if it is so itself and all its parts are. -/
theorem WellSpelled.mk {e : Expr} (hown : Spelled e) (hparts : ∀ c ∈ e.children, WellSpelled c) :
    WellSpelled e := by
  intro part hwithin
  cases hwithin with
  | self => exact hown
  | child hchild hwithin => exact hparts _ hchild part hwithin

/-- The parts of a well-spelled expression are well spelled. -/
theorem WellSpelled.child {e part : Expr} (h : WellSpelled e) (hchild : part ∈ e.children) :
    WellSpelled part :=
  fun _ hwithin => h _ (.child hchild hwithin)

/-- `Shaped p`: the expressions of a phrase are well spelled, if those in front of it are. -/
def Shaped : Phrase → Prop
  | .tier _ e | .unary e | .stepped e | .primary e => WellSpelled e
  | .chain receiver name e =>
    (∀ whole, receiver = some whole → WellSpelled whole ∧ whole.isChain = true) →
      Token.IsName name.lexeme → WellSpelled e ∧ e.isChain = true
  | .arguments args => ∀ es, args = some es → ∀ e ∈ es, WellSpelled e
  | .indexes receiver e | .member receiver e =>
    WellSpelled receiver → receiver.isChain = true → WellSpelled e ∧ e.isChain = true
  | .dimensions sizes => ∀ e ∈ sizes.reduceOption, WellSpelled e
  | .items es | .list es => ∀ e ∈ es, WellSpelled e

/-- A number that is read from a lexeme has the type that its value asks for. -/
theorem spelled_number (kind : Token.Kind) (lexeme : String) (p : Position) :
    Spelled (.number (.ofLexeme kind lexeme) p) := by
  cases hnumber : Number.ofLexeme kind lexeme with
  | single | double => trivial
  | integer type value =>
    unfold Number.ofLexeme at hnumber
    split at hnumber
    · cases hnumber
    · cases hnumber
    · exact ⟨_, hnumber.symm⟩

/-- A name with the arguments behind it is well spelled if these and its receiver are. -/
theorem wellSpelled_named {receiver : Option Expr} {name : Token} {args : Option (List Expr)}
    (hreceiver : ∀ whole, receiver = some whole → WellSpelled whole ∧ whole.isChain = true)
    (hname : Token.IsName name.lexeme) (hargs : ∀ es, args = some es → ∀ e ∈ es, WellSpelled e) :
    WellSpelled (named receiver name args) ∧ (named receiver name args).isChain = true := by
  cases receiver with
  | none =>
    cases args with
    | none => exact ⟨.mk hname (by simp [named, children]), rfl⟩
    | some es => exact ⟨.mk trivial (hargs es rfl), rfl⟩
  | some whole =>
    obtain ⟨hwhole, hchain⟩ := hreceiver whole rfl
    cases args with
    | none => exact ⟨.mk trivial (by simpa [named, children] using hwhole), rfl⟩
    | some es =>
      refine ⟨.mk ⟨hchain, hname⟩ ?_, rfl⟩
      simp only [named, children, List.forall_mem_cons]
      exact ⟨hwhole, hargs es rfl⟩

/-- Whatever the grammar derives from names that are spelled as such is well spelled, by induction
on the derivation: names and numbers are made of single tokens. -/
theorem Derives.shaped {p : Phrase} {n : Nat} {ts : List Token} (h : Derives p n ts)
    (hnames : ∀ t ∈ ts, t.kind = .identifier → Token.IsName t.lexeme) : Shaped p := by
  induction h with
  | binary _ _ _ _ ihleft ihright =>
    simp only [List.forall_mem_append, List.forall_mem_cons] at hnames
    refine .mk trivial ?_
    simp only [children, List.forall_mem_cons]
    exact ⟨ihleft hnames.1, ihright hnames.2.2, by simp⟩
  | tighter _ ih | unary _ ih | stepped _ ih | primary _ ih | items _ ih => exact ih hnames
  | plus _ _ ih | minus _ _ ih | not _ _ ih | stepBefore _ _ ih =>
    rw [List.forall_mem_cons] at hnames
    exact .mk trivial (List.forall_mem_singleton.2 (ih hnames.2))
  | stepAfter _ _ ih =>
    rw [List.forall_mem_append] at hnames
    exact .mk trivial (List.forall_mem_singleton.2 (ih hnames.1))
  | number => exact .mk (spelled_number _ _ _) (by simp [children])
  | bool | string | char | null => exact .mk trivial (by simp [children])
  | chain hkind _ ih =>
    rw [List.forall_mem_cons] at hnames
    exact (ih hnames.2 (by simp) (hnames.1 hkind)).1
  | @type t name sizes args m n ts us ht _ _ ihsizes ihargs =>
    simp only [List.forall_mem_append, List.forall_mem_cons] at hnames
    cases args with
    | none => exact .mk trivial (ihsizes hnames.2.1)
    | some es =>
      refine .mk trivial ?_
      simp only [typed, children, List.forall_mem_append]
      exact ⟨ihargs hnames.2.2 es rfl, ihsizes hnames.2.1⟩
  | parenthesised _ _ _ ih =>
    simp only [List.forall_mem_append, List.forall_mem_cons] at hnames
    exact ih hnames.2.1
  | array _ _ _ ih =>
    simp only [List.forall_mem_append, List.forall_mem_cons] at hnames
    exact .mk trivial (ih hnames.2.1)
  | link _ _ _ ihargs ihindexes ihmember =>
    simp only [List.forall_mem_append] at hnames
    intro hreceiver hname
    obtain ⟨hnamed, hchain⟩ := wellSpelled_named hreceiver hname (ihargs hnames.1)
    obtain ⟨hindexed, hchain⟩ := ihindexes hnames.2.1 hnamed hchain
    exact ihmember hnames.2.2 hindexed hchain
  | noArguments => simp [Shaped]
  | arguments _ _ _ ih =>
    simp only [List.forall_mem_append, List.forall_mem_cons] at hnames
    intro es hes
    cases hes
    exact ih hnames.2.1
  | noIndex | noMember => exact fun hreceiver hchain => ⟨hreceiver, hchain⟩
  | index _ _ _ _ ihoffset ih =>
    simp only [List.forall_mem_append, List.forall_mem_cons] at hnames
    intro hreceiver hchain
    refine ih hnames.2.2.2 (.mk hchain ?_) rfl
    simp only [children, List.forall_mem_cons]
    exact ⟨hreceiver, ihoffset hnames.2.1, by simp⟩
  | member _ hkind _ ih =>
    simp only [List.forall_mem_cons] at hnames
    intro hreceiver hchain
    refine ih hnames.2.2 (fun whole hwhole => ?_) (hnames.2.1 hkind)
    cases hwhole
    exact ⟨hreceiver, hchain⟩
  | noDimension | noItems => simp [Shaped]
  | unsized _ _ _ ih =>
    simp only [List.forall_mem_cons] at hnames
    exact ih hnames.2.2
  | sized _ _ _ _ ihsize ih =>
    simp only [List.forall_mem_append, List.forall_mem_cons] at hnames
    simp only [Shaped, List.reduceOption_cons_of_some, List.forall_mem_cons]
    exact ⟨ihsize hnames.2.1, ih hnames.2.2.2⟩
  | last _ ih => simpa [Shaped] using ih hnames
  | more _ _ _ ihhead ih =>
    simp only [List.forall_mem_append, List.forall_mem_cons] at hnames
    simp only [Shaped, List.forall_mem_cons]
    exact ⟨ihhead hnames.1, ih hnames.2.2⟩

/-- No derivation uses a token for the end of the text. -/
theorem Derives.ne_eof {p : Phrase} {n : Nat} {ts : List Token} (h : Derives p n ts) :
    ∀ t ∈ ts, t.kind ≠ .eof := by
  induction h with
  | number ht => rcases ht with ht | ht | ht <;> simp [ht]
  | _ => simp_all [or_imp]

variable {point own : Token} {args : List Expr} {l : Nat} {vs : List Token}

/-- `Extends p n ts`: behind the phrase `p`, if it is a name with what follows it, a call of the
member `own` with `args` goes on with it. -/
def Extends (point own : Token) (args : List Expr) (vs : List Token) : Phrase → List Token → Prop
  | .chain receiver name e, ts =>
    ∃ n, Derives (.chain receiver name (.method e own.lexeme args own.position)) n
      (ts ++ point :: own :: vs)
  | .member receiver e, ts =>
    ∃ n, Derives (.member receiver (.method e own.lexeme args own.position)) n
      (ts ++ point :: own :: vs)
  | _, _ => True

/-- A name with what follows it can be continued by a call of a member. Members nest to the right,
so the call goes to the innermost one. -/
theorem Derives.extends {p : Phrase} {n : Nat} {ts : List Token} (h : Derives p n ts)
    (hpoint : point.kind = .dot) (hown : own.kind = .identifier)
    (hargs : Derives (.arguments (some args)) l vs) : Extends point own args vs p ts := by
  induction h with
  | link harguments hindexes _ _ _ ihmember =>
    obtain ⟨n, hmember⟩ := ihmember
    have hlink := Derives.link harguments hindexes hmember
    exact ⟨_, by simpa only [List.append_assoc] using hlink⟩
  | @noMember e =>
    have hcall : Derives (.chain (some e) own (named (some e) own (some args))) (max l (max 1 1))
        (vs ++ ([] ++ [])) := .link hargs .noIndex .noMember
    rw [List.append_nil, List.append_nil] at hcall
    exact ⟨_, .member hpoint hown hcall⟩
  | member hpoint' hname _ ih =>
    obtain ⟨n, hchain⟩ := ih
    exact ⟨_, .member hpoint' hname hchain⟩
  | _ => trivial

end Sprout.Expr
