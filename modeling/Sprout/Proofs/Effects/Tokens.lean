import Mathlib.Algebra.GroupWithZero.Nat
import Sprout.Proofs.Parsing.Grammar
import Sprout.Proofs.Typing.Parts

namespace Sprout

/-- What an expression may do besides having a value: it may step a variable, change a vector, or
read a line. How often it does so can be told from its tokens, and from its tree. -/
inductive Effect
  | step (op : StepOp)
  | push
  | pop
  | clear
  | read
deriving DecidableEq, Repr

namespace Effect

/-- The name of the builtin whose calls have the effect. -/
def callee? : Effect → Option String
  | step _ => none
  | push => some "push"
  | pop => some "pop"
  | clear => some "clear"
  | read => some "read"

/-- Whether a run starts with the parenthesis of a call. -/
def opensCall : List Token → Bool
  | [] => false
  | t :: _ => t.kind = .openParen

@[simp] theorem opensCall_nil : opensCall [] = false := rfl

@[simp] theorem opensCall_cons (t : Token) (ts : List Token) :
    opensCall (t :: ts) = decide (t.kind = .openParen) := rfl

/-- Whether a token in front of `rest` has the effect: it is a step, or the name of a builtin that is
called. -/
def isAt (E : Effect) (t : Token) (rest : List Token) : Bool :=
  match E with
  | step op => t.kind = .step op
  | called => t.kind = .identifier && called.callee? = some t.lexeme && opensCall rest

/-- The number of times that a run of tokens has the effect. -/
def count (E : Effect) : List Token → Nat
  | [] => 0
  | t :: rest => (if E.isAt t rest then 1 else 0) + count E rest

/-- The number of times that an expression has the effect by itself, its parts aside. -/
def own (E : Effect) : Expr → Nat
  | .stepBefore op _ _ | .stepAfter op _ _ => if E = .step op then 1 else 0
  | .call name _ _ | .method _ name _ _ => if E.callee? = some name then 1 else 0
  | _ => 0

/-- The number of times that an expression has the effect. -/
def total (E : Effect) (e : Expr) : Nat :=
  E.own e + (e.children.attach.map fun part => total E part.1).sum
termination_by sizeOf e
decreasing_by exact Expr.sizeOf_lt_of_child part.2

/-- The number of times that several expressions have the effect. -/
def totalOf (E : Effect) (es : List Expr) : Nat :=
  (es.map E.total).sum

/-- An expression has its own effect and those of its parts. -/
theorem total_eq (E : Effect) (e : Expr) : E.total e = E.own e + E.totalOf e.children := by
  rw [total, totalOf]
  congr 2
  exact List.attach_map_val

section Count

variable {E : Effect} {t : Token} {ts us : List Token}

/-- Whether no call starts with the last of some tokens and the first of others. -/
def Apart (ts us : List Token) : Prop :=
  (∀ t ∈ ts.getLast?, t.kind ≠ .identifier) ∨ opensCall us = false

/-- No effect stands at a token that is neither a step nor a name that is called. -/
theorem isAt_eq_false (hstep : ∀ op, t.kind ≠ .step op)
    (hcall : t.kind ≠ .identifier ∨ opensCall ts = false) : E.isAt t ts = false := by
  cases E with
  | step op => simp [isAt, hstep op]
  | push | pop | clear | read => rcases hcall with hcall | hcall <;> simp [isAt, hcall]

/-- A token without an effect adds nothing to the count. -/
theorem count_cons_of_isAt (h : E.isAt t ts = false) : E.count (t :: ts) = E.count ts := by
  simp [count, h]

/-- Marks, keywords and literals have no effect. -/
theorem count_cons (hstep : ∀ op, t.kind ≠ .step op) (hname : t.kind ≠ .identifier) :
    E.count (t :: ts) = E.count ts :=
  count_cons_of_isAt (isAt_eq_false hstep (.inl hname))

/-- Whether an effect stands at a token is seen from the token behind it, so it does not depend on
what follows a run. -/
theorem isAt_append (hapart : Apart (t :: ts) us) : E.isAt t (ts ++ us) = E.isAt t ts := by
  cases ts with
  | cons => cases E <;> rfl
  | nil =>
    cases E with
    | step op => rfl
    | push | pop | clear | read =>
      rcases hapart with hname | hopens
      · simp [isAt, hname t rfl]
      · simp [isAt, hopens]

/-- Two runs have the effects of both, if the first does not end with a name that the second
calls. -/
theorem count_append (hapart : Apart ts us) : E.count (ts ++ us) = E.count ts + E.count us := by
  induction ts with
  | nil => simp [count]
  | cons t ts ih =>
    have hrest : Apart ts us := by
      refine hapart.imp_left fun hlast last hmem => hlast last ?_
      cases ts with
      | nil => cases hmem
      | cons => simpa using hmem
    rw [List.cons_append, count, isAt_append hapart, ih hrest, count]
    omega

/-- A mark cuts a run into two that have their effects by themselves. -/
theorem count_append_cons (hstep : ∀ op, t.kind ≠ .step op) (hname : t.kind ≠ .identifier)
    (hopening : t.kind ≠ .openParen) : E.count (ts ++ t :: us) = E.count ts + E.count us := by
  rw [count_append (.inr (by simpa using hopening)), count_cons hstep hname]

/-- A run without steps and parentheses has no effects. -/
theorem count_eq_zero (hstep : ∀ t ∈ ts, ∀ op, t.kind ≠ .step op)
    (hopening : ∀ t ∈ ts, t.kind ≠ .openParen) : E.count ts = 0 := by
  induction ts with
  | nil => rfl
  | cons t ts ih =>
    rw [List.forall_mem_cons] at hstep hopening
    rw [count_cons_of_isAt, ih hstep.2 hopening.2]
    refine isAt_eq_false hstep.1 (.inr ?_)
    cases ts with
    | nil => rfl
    | cons t' ts => simpa using hopening.2 t' (by simp)

end Count

end Effect

namespace Expr

open Effect (Apart opensCall)

/-- `Counted E p ts`: the run `ts` has the effect as often as the phrase `p` adds it to what stands
in front. -/
def Counted (E : Effect) (ts : List Token) : Phrase → Prop
  | .tier _ e | .unary e | .stepped e | .primary e => E.count ts = E.total e
  | .chain receiver name e => name.kind = .identifier →
    E.total e = receiver.elim 0 E.total + E.count (name :: ts)
  | .arguments args => E.count ts = E.totalOf (args.getD []) ∧ opensCall ts = args.isSome
  | .indexes receiver e | .member receiver e =>
    E.total e = E.total receiver + E.count ts ∧ opensCall ts = false
  | .dimensions sizes =>
    E.count ts = E.totalOf sizes.reduceOption ∧ ∀ t ∈ ts.getLast?, t.kind ≠ .identifier
  | .items es | .list es => E.count ts = E.totalOf es

section Counted

variable {E : Effect} {opening closing t : Token} {ts us : List Token}

/-- Brackets have no effect. -/
theorem count_enclosed (hopening : opening.kind = .openParen ∨ opening.kind = .openBracket)
    (hclosing : closing.kind = .closeParen ∨ closing.kind = .closeBracket) :
    E.count (opening :: (ts ++ closing :: us)) = E.count ts + E.count us := by
  have hfirst : E.count (opening :: (ts ++ closing :: us)) = E.count (ts ++ closing :: us) := by
    refine Effect.count_cons (fun op => ?_) ?_ <;> rcases hopening with h | h <;> simp [h]
  have hlast : E.count (ts ++ closing :: us) = E.count ts + E.count us := by
    refine Effect.count_append_cons (fun op => ?_) ?_ ?_ <;> rcases hclosing with h | h <;> simp [h]
  rw [hfirst, hlast]

/-- A run that ends with a bracket does not end with a name. -/
theorem getLast?_behind (ts : List Token) (hclosing : closing.kind = .closeBracket)
    (hus : ∀ t ∈ us.getLast?, t.kind ≠ .identifier) :
    ∀ t ∈ (ts ++ closing :: us).getLast?, t.kind ≠ .identifier := by
  cases us with
  | nil => simp [hclosing]
  | cons => simpa using hus

/-- A step is the effect of stepping. -/
theorem isAt_step {op : StepOp} (ht : t.kind = .step op) : E.isAt t ts = decide (E = .step op) := by
  cases E <;> simp [Effect.isAt, ht, eq_comm]

/-- A name behind a dot has the effects of what stands in front of it, its own call and those of its
arguments. -/
theorem total_named {receiver : Option Expr} {name : Token} {args : Option (List Expr)}
    (hname : name.kind = .identifier) (hargs : E.count ts = E.totalOf (args.getD []))
    (hopens : opensCall ts = args.isSome) :
    E.total (named receiver name args) = receiver.elim 0 E.total + E.count (name :: ts) := by
  have hown : E.own (named receiver name args) = if E.isAt name ts then 1 else 0 := by
    cases receiver <;> cases args <;> cases E <;>
      simp [named, Effect.own, Effect.isAt, hname, hopens, Effect.callee?, eq_comm]
  have hparts : E.totalOf (named receiver name args).children =
      receiver.elim 0 E.total + E.totalOf (args.getD []) := by
    cases receiver <;> cases args <;> simp [named, children, Effect.totalOf]
  rw [Effect.total_eq, hown, hparts, Effect.count, hargs]
  omega

/-- A run that the grammar derives has an effect as often as what it denotes. -/
theorem Derives.counted {p : Phrase} {n : Nat} (h : Derives p n ts) (E : Effect) :
    Counted E ts p := by
  induction h with
  | @binary k op left right t m n ts us hop ht hleft hright ihleft ihright =>
    have hcut : E.count (ts ++ t :: us) = E.count ts + E.count us :=
      Effect.count_append_cons (by simp [ht]) (by simp [ht]) (by simp [ht])
    simp only [Counted] at ihleft ihright ⊢
    simp [hcut, ihleft, ihright, Effect.total_eq E (.binary ..), Effect.own, children,
      Effect.totalOf]
  | tighter h ih | unary h ih | stepped h ih | primary h ih | items h ih => exact ih
  | @plus e t n ts ht h ih | @minus e t n ts ht h ih | @not e t n ts ht h ih =>
    have hfirst : E.count (t :: ts) = E.count ts :=
      Effect.count_cons (by simp [ht]) (by simp [ht])
    simp only [Counted] at ih ⊢
    simp [hfirst, ih, Effect.total_eq E (.unary ..), Effect.own, children, Effect.totalOf]
  | @stepBefore op e t n ts ht h ih =>
    simp only [Counted] at ih ⊢
    simp [Effect.count, isAt_step ht, ih, Effect.total_eq E (.stepBefore ..), Effect.own, children,
      Effect.totalOf]
  | @stepAfter op e t n ts ht h ih =>
    have hlast : E.count (ts ++ [t]) = E.count ts + E.count [t] :=
      Effect.count_append (.inr (by simp [ht]))
    simp only [Counted] at ih ⊢
    simp [hlast, Effect.count, isAt_step ht, ih, Effect.total_eq E (.stepAfter ..), Effect.own,
      children, Effect.totalOf, Nat.add_comm]
  | @number t ht =>
    have hnone : E.count [t] = 0 := by
      refine Effect.count_cons (fun op => ?_) ?_ <;> rcases ht with h | h | h <;> simp [h]
    simp [Counted, hnone, Effect.total_eq, Effect.own, children, Effect.totalOf]
  | @bool t ht | @string t ht | @char t c ht hc | @null t ht =>
    have hnone : E.count [t] = 0 := Effect.count_cons (by simp [ht]) (by simp [ht])
    simp [Counted, hnone, Effect.total_eq, Effect.own, children, Effect.totalOf]
  | @chain name e n ts hname h ih => simpa [Counted] using (ih hname).symm
  | @type t name sizes args m n ts us ht hsizes hargs ihsizes ihargs =>
    have hfirst : E.count (t :: (ts ++ us)) = E.count (ts ++ us) :=
      Effect.count_cons (by simp [ht]) (by simp [ht])
    have hcut : E.count (ts ++ us) = E.count ts + E.count us :=
      Effect.count_append (.inl ihsizes.2)
    simp only [Counted, hfirst, hcut, ihsizes.1, ihargs.1]
    cases args <;>
      simp [typed, Effect.total_eq, Effect.own, children, Effect.totalOf, Nat.add_comm]
  | @parenthesised opening closing e n ts hopening hclosing h ih =>
    rw [Counted, count_enclosed (.inl hopening) (.inl hclosing)]
    exact ih
  | @array opening closing es n ts hopening hclosing h ih =>
    rw [Counted, count_enclosed (.inr hopening) (.inr hclosing), Effect.total_eq]
    simpa [Effect.own, children, Effect.count, Counted] using ih
  | @link receiver name args indexed e l m n ts us vs hargs hindexes hmember ihargs ihindexes
      ihmember =>
    intro hname
    have hopens : opensCall (us ++ vs) = false := by
      cases us with
      | nil => exact ihmember.2
      | cons => exact ihindexes.2
    rw [← List.cons_append, Effect.count_append (.inr hopens),
      Effect.count_append (.inr ihmember.2), ihmember.1, ihindexes.1,
      total_named hname ihargs.1 ihargs.2]
    omega
  | noArguments => exact ⟨rfl, rfl⟩
  | @arguments opening closing es n ts hopening hclosing h ih =>
    refine ⟨?_, by simp [hopening]⟩
    rw [count_enclosed (.inl hopening) (.inl hclosing)]
    exact ih
  | noIndex | noMember => exact ⟨rfl, rfl⟩
  | @index receiver offset e opening closing m n ts us hopening hclosing hoffset h ihoffset ih =>
    refine ⟨?_, by simp [hopening]⟩
    rw [count_enclosed (.inr hopening) (.inr hclosing), ih.1, Effect.total_eq]
    simp only [Counted] at ihoffset
    simp [Effect.own, children, Effect.totalOf, ihoffset]
    omega
  | @member receiver name e point n ts hpoint hname h ih =>
    refine ⟨?_, by simp [hpoint]⟩
    rw [Effect.count_cons (by simp [hpoint]) (by simp [hpoint]), ih hname]
    rfl
  | noDimension => exact ⟨rfl, by simp⟩
  | @unsized sizes opening closing n us hopening hclosing h ih =>
    refine ⟨?_, getLast?_behind [opening] hclosing ih.2⟩
    rw [← List.nil_append (closing :: us), count_enclosed (.inr hopening) (.inr hclosing), ih.1]
    exact Nat.zero_add _
  | @sized size sizes opening closing m n ts us hopening hclosing hsize h ihsize ih =>
    refine ⟨?_, getLast?_behind (opening :: ts) hclosing ih.2⟩
    rw [count_enclosed (.inr hopening) (.inr hclosing), ih.1, ihsize]
    rfl
  | noItems => rfl
  | @last e n ts h ih => simpa [Counted, Effect.totalOf] using ih
  | @more e es comma m n ts us hcomma hhead h ihhead ih =>
    have hcut : E.count (ts ++ comma :: us) = E.count ts + E.count us :=
      Effect.count_append_cons (by simp [hcomma]) (by simp [hcomma]) (by simp [hcomma])
    simp only [Counted] at ihhead ih ⊢
    simp [hcut, ihhead, ih, Effect.totalOf]

end Counted

end Expr

end Sprout
