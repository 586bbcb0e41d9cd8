import Sprout.Proofs.Parsing.Soundness

namespace Sprout.Expr

variable {α β : Type}

/-- A reading that is refused for its nesting. -/
def TooDeep (reading : Except (Defect Malformed) α) : Prop :=
  ∃ defect, reading = .error defect ∧ defect.cause = .tooDeep

/-- A reading that comes to `result` if its nesting is allowed, and is refused for it otherwise.
What follows a phrase must not continue it. -/
def Settles (fits : Prop) (reading result : Except (Defect Malformed) α) : Prop :=
  (fits → reading = result) ∧ (¬ fits → TooDeep reading)

namespace Settles

variable {p q : Prop} {x : Except (Defect Malformed) α} {y : Except (Defect Malformed) β}

/-- A reading that has its result is settled, if what it depends on holds. -/
theorem of_eq {result : Except (Defect Malformed) α} (hp : p) (h : x = result) : Settles p x result :=
  ⟨fun _ => h, fun hnot => absurd hp hnot⟩

/-- What a reading depends on may be said in another way. -/
theorem congr {result : Except (Defect Malformed) α} (h : Settles p x result) (hpq : p ↔ q) :
    Settles q x result :=
  ⟨fun hq => h.1 (hpq.2 hq), fun hnot => h.2 fun hp => hnot (hpq.1 hp)⟩

/-- Two readings one after the other settle if each does. -/
theorem bind {a : α} {f : α → Except (Defect Malformed) β} (hx : Settles p x (.ok a))
    (hf : Settles q (f a) y) : Settles (p ∧ q) (x >>= f) y := by
  constructor
  · intro hpq
    rw [hx.1 hpq.1]
    exact hf.1 hpq.2
  · intro hnot
    by_cases hp : p
    · rw [hx.1 hp]
      exact hf.2 fun hq => hnot ⟨hp, hq⟩
    · obtain ⟨defect, hdefect, hcause⟩ := hx.2 hp
      exact ⟨defect, by rw [hdefect]; rfl, hcause⟩

/-- A reading that comes to another one settles with it. -/
theorem trans {x y z : Except (Defect Malformed) α} (hxy : Settles p x y) (hyz : Settles q y z) :
    Settles (p ∧ q) x z := by
  constructor
  · intro hpq
    rw [hxy.1 hpq.1, hyz.1 hpq.2]
  · intro hnot
    by_cases hp : p
    · rw [hxy.1 hp]
      exact hyz.2 fun hq => hnot ⟨hp, hq⟩
    · exact hxy.2 hp

/-- A reading whose result is changed afterwards. -/
theorem map {a : α} {f : α → Except (Defect Malformed) β} (hx : Settles p x (.ok a))
    (hf : f a = y) : Settles p (x >>= f) y :=
  (hx.bind (of_eq trivial hf)).congr (by simp)

end Settles

/-- Nothing that continues a name or a type stands in front of a run. -/
structure Detached (ts : List Token) : Prop where
  paren : headKind ts ≠ some .openParen
  bracket : headKind ts ≠ some .openBracket
  dot : headKind ts ≠ some .dot

/-- Nothing that continues an operand stands in front of a run. -/
structure Ended (ts : List Token) : Prop extends Detached ts where
  step : ∀ op, headKind ts ≠ some (.step op)

/-- A token that cannot continue an operand ends it. -/
theorem Ended.of_kind {t : Token} {ts : List Token} (hparen : t.kind ≠ .openParen)
    (hbracket : t.kind ≠ .openBracket) (hdot : t.kind ≠ .dot) (hstep : ∀ op, t.kind ≠ .step op) :
    Ended (t :: ts) :=
  ⟨⟨by simpa using hparen, by simpa using hbracket, by simpa using hdot⟩, by simpa using hstep⟩

/-- Nothing continues a phrase at the end of a run. -/
theorem Ended.nil : Ended [] := ⟨⟨by simp, by simp, by simp⟩, by simp⟩

/-- The reader of the members of a level, if members are still allowed. -/
def deeper (ending : Defect Malformed) : Nat → Option LinkReader
  | 0 => none
  | depth + 1 => some (level ending depth).link

/-- What lists must know of the first token of a phrase: it is there, and it closes no bracket. -/
def Starts : Phrase → List Token → Prop
  | .tier _ _, ts | .unary _, ts | .stepped _, ts | .primary _, ts | .list _, ts =>
    ∃ t rest, ts = t :: rest ∧ t.kind ≠ .closeParen ∧ t.kind ≠ .closeBracket
  | _, _ => True

/-- A phrase starts with a token that its kind of phrase can start with, by cases on the rules. -/
theorem Derives.starts {p : Phrase} {n : Nat} {ts : List Token} (h : Derives p n ts) :
    Starts p ts := by
  induction h with
  | binary _ _ _ _ ih | stepAfter _ _ ih | more _ _ _ ih =>
    obtain ⟨t, rest, rfl, hparen, hbracket⟩ := ih
    exact ⟨t, _, rfl, hparen, hbracket⟩
  | tighter _ ih | unary _ ih | stepped _ ih | primary _ ih | last _ ih => exact ih
  | plus ht | minus ht | not ht | stepBefore ht | bool ht | string ht | char ht | null ht
  | type ht => exact ⟨_, _, rfl, by simp [ht], by simp [ht]⟩
  | chain ht | parenthesised ht | array ht => exact ⟨_, _, rfl, by simp [ht], by simp [ht]⟩
  | number ht =>
    refine ⟨_, _, rfl, ?_, ?_⟩ <;> rcases ht with ht | ht | ht <;> simp [ht]
  | _ => trivial

/-- `Completes p n ts`: the reader of phrases like `p` takes `ts` for `p` wherever that many levels
are left and what follows cannot continue the phrase. In an expression of tier `k` the operators
behind it may still go on, at any floor from `k` down. -/
def Completes (ending : Defect Malformed) : Phrase → Nat → List Token → Prop
  | .tier k e, n, ts => ∀ depth floor rest, floor ≤ k → Ended rest → Bounded (k + 1) rest →
      Settles (n ≤ depth + 1) (seen (expressionWith ending (level ending depth) floor (ts ++ rest)))
        (seen (binaryTail (level ending depth).expression floor e rest))
  | .unary e, n, ts => ∀ depth rest, Ended rest →
      Settles (n ≤ depth + 1) (seen (unaryOperand ending (level ending depth) (ts ++ rest)))
        (.ok (e, rest))
  | .stepped e, n, ts => ∀ depth rest, Detached rest →
      Settles (n ≤ depth + 1) (seen (unaryOperand ending (level ending depth) (ts ++ rest)))
        (.ok ((stepsAfter e rest).value, (stepsAfter e rest).rest))
  | .primary e, n, ts => ∃ t us, ts = t :: us ∧ leading? t.kind = none ∧
      ∀ depth rest, Detached rest →
        Settles (n ≤ depth + 1) (seen (operand (level ending depth) t (us ++ rest))) (.ok (e, rest))
  | .chain receiver name e, n, ts => ∀ depth rest, Detached rest →
      Settles (n ≤ depth + 1)
        (seen ((level ending depth).link (named receiver name none)
          (fun args => named receiver name (some args)) (ts ++ rest)))
        (.ok (e, rest))
  | .arguments args, n, ts => ∀ depth rest, headKind rest ≠ some .openParen →
      Settles (n ≤ depth + 1) (seen (arguments? (level ending depth).expression (ts ++ rest)))
        (.ok (args, rest))
  | .indexes receiver e, n, ts => ∀ depth rest, headKind rest ≠ some .openBracket →
      Settles (n ≤ depth + 1) (seen (indexes (level ending depth).expression receiver (ts ++ rest)))
        (.ok (e, rest))
  | .member receiver e, n, ts => ∀ depth rest, Detached rest →
      Settles (n ≤ depth + 1) (seen (member ending (deeper ending depth) receiver (ts ++ rest)))
        (.ok (e, rest))
  | .dimensions sizes, n, ts => ∀ depth rest, headKind rest ≠ some .openBracket →
      Settles (n ≤ depth + 1) (seen (dimensions (level ending depth).expression (ts ++ rest)))
        (.ok (sizes, rest))
  | .items es, n, ts => ∀ depth close defect closing rest, closing.kind = close →
      close = .closeParen ∨ close = .closeBracket →
      Settles (n ≤ depth + 1)
        (seen (enclosed (level ending depth).expression close defect (ts ++ closing :: rest)))
        (.ok (es, rest))
  | .list es, n, ts => ∀ depth rest, Ended rest → Bounded 0 rest → headKind rest ≠ some .comma →
      Settles (n ≤ depth + 1) (seen (list (level ending depth).expression (ts ++ rest)))
        (.ok (es, rest))

variable {ending : Defect Malformed} {e : Expr} {k n : Nat} {ts rest : List Token}

/-- A run that is not empty is refused as too deep where no level is left. -/
theorem refuse_tooDeep (ending : Defect Malformed) (floor : Nat) (hts : ts ≠ []) :
    TooDeep (seen (refuse ending floor ts)) := by
  cases ts with
  | nil => exact absurd rfl hts
  | cons t ts => exact ⟨t.defect .tooDeep, rfl, rfl⟩

/-- A bracket that closes ends whatever stands before it. -/
theorem ended_of_closing {closing : Token} {rest : List Token}
    (h : closing.kind = .closeParen ∨ closing.kind = .closeBracket) :
    Ended (closing :: rest) ∧ Bounded 0 (closing :: rest) ∧ headKind (closing :: rest) ≠ some .comma := by
  rcases h with h | h
  all_goals
    exact ⟨.of_kind (by simp [h]) (by simp [h]) (by simp [h]) (by simp [h]), by simp [Bounded, h],
      by simp [h]⟩

namespace Completes

/-- Where the operators behind an expression stop, the expression is all that is read. -/
theorem expression (h : Completes ending (.tier k e) n ts) (hd : Derives (.tier k e) n ts)
    {floor : Nat} (hfloor : floor ≤ k) (hended : Ended rest) (hbounded : Bounded floor rest)
    (depth : Nat) :
    Settles (n ≤ depth) (seen ((level ending depth).expression floor (ts ++ rest))) (.ok (e, rest)) := by
  cases depth with
  | zero =>
    have hpos := hd.nesting_pos
    obtain ⟨t, us, rfl, _⟩ := hd.starts
    exact ⟨fun hn => by omega, fun _ => refuse_tooDeep ending floor (by simp)⟩
  | succ depth =>
    have hloose : Bounded (k + 1) rest := fun op hop => by have := hbounded op hop; omega
    have hread := h depth floor rest hfloor hended hloose
    rw [seen_binaryTail_stop _ e hbounded] at hread
    exact hread

/-- The operand of a leading operator is read as far as it goes. -/
theorem unaryExpression (h : Completes ending (.unary e) n ts) (hd : Derives (.unary e) n ts)
    (hended : Ended rest) (depth : Nat) :
    Settles (n ≤ depth) (seen ((level ending depth).expression unaryPrecedence (ts ++ rest)))
      (.ok (e, rest)) := by
  cases depth with
  | zero =>
    have hpos := hd.nesting_pos
    obtain ⟨t, us, rfl, _⟩ := hd.starts
    exact ⟨fun hn => by omega, fun _ => refuse_tooDeep ending unaryPrecedence (by simp)⟩
  | succ depth =>
    change Settles _ (seen (expressionWith ending (level ending depth) _ _)) _
    rw [seen_expressionWith]
    refine (h depth rest hended).map ?_
    exact seen_binaryTail_stop _ e (bounded_of_tierCount_le (by decide) rest)

/-- An expression in brackets is read together with the closing one. -/
theorem closed (h : Completes ending (.tier 0 e) n ts) (hd : Derives (.tier 0 e) n ts)
    {close : Token.Kind} {closing : Token} (hclosing : closing.kind = close)
    (hclose : close = .closeParen ∨ close = .closeBracket) (defect : Defect Malformed) (depth : Nat)
    (rest : List Token) :
    Settles (n ≤ depth)
      (seen (closed (level ending depth).expression close defect (ts ++ closing :: rest)))
      (.ok (e, rest)) := by
  subst hclosing
  obtain ⟨hended, hbounded, _⟩ := ended_of_closing hclose
  rw [seen_closed]
  exact (h.expression hd (Nat.le_refl 0) hended hbounded depth).map (by simp)

/-- An operator in front of an operand takes the operand one level further down. -/
theorem leading (build : Expr → Position → Expr) {t : Token} (hlead : leading? t.kind = some build)
    (hd : Derives (.unary e) n ts) (h : Completes ending (.unary e) n ts) :
    Completes ending (.unary (build e t.position)) (n + 1) (t :: ts) := by
  intro depth rest hended
  rw [List.cons_append, seen_unaryOperand_leading ending _ hlead]
  exact ((h.unaryExpression hd hended depth).map rfl).congr (by omega)

/-- An operand that is a single token is read without a further level. -/
theorem single {t : Token} (hlead : leading? t.kind = none)
    (h : ∀ below rest, seen (operand below t rest) = .ok (e, rest)) :
    Completes ending (.primary e) 1 [t] :=
  ⟨t, [], rfl, hlead, fun depth rest _ => .of_eq (by omega) (h _ rest)⟩

/-- A left operand, an operator of its tier and a right operand make an expression of the tier. -/
theorem binary {op : BinaryOp} {left right : Expr} {t : Token} {m : Nat} {us : List Token}
    (hop : op ∈ tier k) (ht : t.kind = .operator op) (hleft : Completes ending (.tier k left) m ts)
    (hd : Derives (.tier (k + 1) right) n us) (hright : Completes ending (.tier (k + 1) right) n us) :
    Completes ending (.tier k (.binary op left right t.position)) (max m (n + 1)) (ts ++ t :: us) := by
  intro depth floor rest hfloor hended hbounded
  have hprec := mem_tier_iff.1 hop
  have hstop : Ended (t :: (us ++ rest)) :=
    .of_kind (by simp [ht]) (by simp [ht]) (by simp [ht]) (by simp [ht])
  have hnext : Bounded (k + 1) (t :: (us ++ rest)) := by
    intro found hfound
    rw [headKind_cons, ht] at hfound
    cases hfound
    omega
  -- The left operand is read up to the operator, which then takes the right one.
  have hl := hleft depth floor (t :: (us ++ rest)) hfloor hstop hnext
  rw [seen_binaryTail_operator _ left ht (by omega), hprec] at hl
  rw [List.append_assoc, List.cons_append]
  have hr := hright.expression hd (Nat.le_refl _) hended hbounded depth
  exact (hl.trans (hr.map rfl)).congr (by omega)

/-- A type name is read with the brackets and the arguments behind it. -/
theorem type {t : Token} {name : Primitive} {sizes : List (Option Expr)} {args : Option (List Expr)}
    {m : Nat} {us : List Token} (hsizes : Completes ending (.dimensions sizes) m ts)
    (ht : t.kind = .type name) (hdargs : Derives (.arguments args) n us)
    (hargs : Completes ending (.arguments args) n us) :
    Completes ending (.primary (typed t name sizes args)) (max m n) (t :: (ts ++ us)) := by
  refine ⟨t, ts ++ us, rfl, by simp [leading?, ht], fun depth rest hrest => ?_⟩
  have hbracket : headKind (us ++ rest) ≠ some .openBracket := by
    cases hdargs with
    | noArguments => exact hrest.bracket
    | arguments hopening => simp [hopening]
  rw [seen_operand_type _ ht, List.append_assoc, ← elim_eq_typed]
  have htail := (hargs depth rest hrest.paren).map
    (f := fun read => pure (read.1.elim (typeName name sizes t.position)
      (convert name sizes · t.position), read.2)) rfl
  exact ((hsizes depth _ hbracket).bind htail).congr (by omega)

/-- What follows a name is read part by part: its arguments, its indexes, and the next name, each of
which ends where the next one starts. -/
theorem link {receiver : Option Expr} {name : Token} {args : Option (List Expr)} {indexed : Expr}
    {l m : Nat} {us vs : List Token} (hargs : Completes ending (.arguments args) l ts)
    (hdindexes : Derives (.indexes (named receiver name args) indexed) m us)
    (hindexes : Completes ending (.indexes (named receiver name args) indexed) m us)
    (hdmember : Derives (.member indexed e) n vs) (hmember : Completes ending (.member indexed e) n vs) :
    Completes ending (.chain receiver name e) (max l (max m n)) (ts ++ (us ++ vs)) := by
  intro depth rest hrest
  have hlink : (level ending depth).link =
      linkWith ending (level ending depth).expression (deeper ending depth) := by
    cases depth <;> rfl
  have hbracket : headKind (vs ++ rest) ≠ some .openBracket := by
    cases hdmember with
    | noMember => exact hrest.bracket
    | member hpoint => simp [hpoint]
  have hparen : headKind (us ++ (vs ++ rest)) ≠ some .openParen := by
    cases hdindexes with
    | index hopening => simp [hopening]
    | noIndex =>
      cases hdmember with
      | noMember => exact hrest.paren
      | member hpoint => simp [hpoint]
  rw [hlink, seen_linkWith, List.append_assoc, List.append_assoc]
  have hi := hindexes depth (vs ++ rest) hbracket
  rw [← elim_eq_named] at hi
  have htail := hi.bind (f := fun read => seen (member ending (deeper ending depth) read.1 read.2))
    (hmember depth rest hrest)
  exact ((hargs depth _ hparen).bind htail).congr (by omega)

/-- An index in brackets is read one level further down, and the other indexes behind it. -/
theorem index {receiver offset : Expr} {opening closing : Token} {m : Nat} {us : List Token}
    (hopening : opening.kind = .openBracket) (hclosing : closing.kind = .closeBracket)
    (hd : Derives (.tier 0 offset) m ts) (hoffset : Completes ending (.tier 0 offset) m ts)
    (h : Completes ending (.indexes (.index receiver offset) e) n us) :
    Completes ending (.indexes receiver e) (max (m + 1) n) (opening :: (ts ++ closing :: us)) := by
  intro depth rest hrest
  obtain ⟨t, inner, rfl, _, hbracket⟩ := hd.starts
  have hfirst := hoffset.closed hd hclosing (.inr rfl) (opening.defect .unclosedIndex) depth (us ++ rest)
  rw [List.cons_append, seen_indexes_cons, if_pos hopening, List.append_assoc, seen_offset,
    if_neg (by simpa using hbracket)]
  exact (hfirst.bind (h depth rest hrest)).congr (by omega)

/-- A size in brackets is read one level further down, and the other dimensions behind it. -/
theorem sized {size : Expr} {sizes : List (Option Expr)} {opening closing : Token} {m : Nat}
    {us : List Token} (hopening : opening.kind = .openBracket)
    (hclosing : closing.kind = .closeBracket) (hd : Derives (.tier 0 size) m ts)
    (hsize : Completes ending (.tier 0 size) m ts) (h : Completes ending (.dimensions sizes) n us) :
    Completes ending (.dimensions (some size :: sizes)) (max (m + 1) n)
      (opening :: (ts ++ closing :: us)) := by
  intro depth rest hrest
  obtain ⟨t, inner, rfl, _, hbracket⟩ := hd.starts
  have hfirst := (hsize.closed hd hclosing (.inr rfl) (opening.defect .unclosedIndex) depth
    (us ++ rest)).map (f := fun read => pure (some read.1, read.2)) rfl
  have htail := (h depth rest hrest).map (f := fun read => pure (some size :: read.1, read.2)) rfl
  rw [List.cons_append, seen_dimensions_cons, if_pos hopening, List.append_assoc, seen_size,
    if_neg (by simpa using hbracket)]
  exact (hfirst.bind htail).congr (by omega)

/-- The first expression of a list is read up to its comma, and the others behind that. -/
theorem more {es : List Expr} {comma : Token} {m : Nat} {us : List Token}
    (hcomma : comma.kind = .comma) (hd : Derives (.tier 0 e) m ts)
    (hhead : Completes ending (.tier 0 e) m ts) (h : Completes ending (.list es) n us) :
    Completes ending (.list (e :: es)) (max (m + 1) n) (ts ++ comma :: us) := by
  intro depth rest hended hbounded hlast
  have hstop : Ended (comma :: (us ++ rest)) :=
    .of_kind (by simp [hcomma]) (by simp [hcomma]) (by simp [hcomma]) (by simp [hcomma])
  have hfirst := hhead.expression hd (Nat.le_refl 0) hstop (by simp [Bounded, hcomma]) depth
  have htail := h depth rest hended hbounded hlast
  rw [← if_pos (t := seen (list _ _)) (e := .ok ([], comma :: (us ++ rest))) hcomma,
    ← seen_listTail_cons] at htail
  have hothers := htail.map (f := fun read => pure (e :: read.1, read.2)) rfl
  rw [seen_list, List.append_assoc, List.cons_append]
  exact (hfirst.bind hothers).congr (by omega)

end Completes

/-- Every phrase is read as what it denotes, by induction on its derivation. Each rule has a reader
that takes its tokens in the same order, one level down where the rule goes one down. -/
theorem Derives.completes (ending : Defect Malformed) {p : Phrase} (h : Derives p n ts) :
    Completes ending p n ts := by
  induction h with
  | binary hop ht _ hd ihleft ihright => exact ihleft.binary hop ht hd ihright
  | tighter _ ih =>
    intro depth floor rest hfloor hended hbounded
    exact ih depth floor rest (by omega) hended fun op hop => by have := hbounded op hop; omega
  | unary _ ih =>
    intro depth floor rest _ hended _
    rw [seen_expressionWith]
    exact (ih depth rest hended).map rfl
  | plus ht hd ih => exact ih.leading (.unary .plus) (by simp [leading?, ht]) hd
  | minus ht hd ih => exact ih.leading (.unary .minus) (by simp [leading?, ht]) hd
  | not ht hd ih => exact ih.leading (.unary .not) (by simp [leading?, ht]) hd
  | stepBefore ht hd ih => exact ih.leading (.stepBefore _) (by simp [leading?, ht]) hd
  | stepped _ ih =>
    intro depth rest hended
    have hread := ih depth rest hended.toDetached
    rw [stepsAfter_other _ hended.step] at hread
    exact hread
  | @stepAfter _ _ t _ _ ht _ ih =>
    intro depth rest hrest
    have hread := ih depth (t :: rest) ⟨by simp [ht], by simp [ht], by simp [ht]⟩
    rw [stepsAfter_step _ ht] at hread
    rw [List.append_assoc]
    exact hread
  | primary _ ih =>
    obtain ⟨t, us, rfl, hlead, hread⟩ := ih
    intro depth rest hrest
    rw [List.cons_append, seen_unaryOperand_other ending _ hlead]
    exact (hread depth rest hrest).map rfl
  | number ht =>
    refine .single ?_ fun below rest => ?_ <;> rcases ht with ht | ht | ht
    · simp [leading?, ht]
    · simp [leading?, ht]
    · simp [leading?, ht]
    · simp [operand, ht]
    · simp [operand, ht]
    · simp [operand, ht]
  | bool ht => exact .single (by simp [leading?, ht]) fun below rest => by simp [operand, ht]
  | string ht => exact .single (by simp [leading?, ht]) fun below rest => by simp [operand, ht]
  | char ht hc => exact .single (by simp [leading?, ht]) fun below rest => by simp [operand, ht, hc]
  | null ht => exact .single (by simp [leading?, ht]) fun below rest => by simp [operand, ht]
  | chain hname _ ih =>
    refine ⟨_, _, rfl, by simp [leading?, hname], fun depth rest hrest => ?_⟩
    rw [seen_operand_identifier _ hname]
    exact ih depth rest hrest
  | type ht _ hdargs ihsizes ihargs => exact ihsizes.type ht hdargs ihargs
  | parenthesised hopening hclosing hd ih =>
    refine ⟨_, _, rfl, by simp [leading?, hopening], fun depth rest _ => ?_⟩
    rw [seen_operand_parenthesis _ hopening, List.append_assoc]
    exact (ih.closed hd hclosing (.inl rfl) _ depth rest).congr (by omega)
  | array hopening hclosing _ ih =>
    refine ⟨_, _, rfl, by simp [leading?, hopening], fun depth rest _ => ?_⟩
    rw [seen_operand_bracket _ hopening, List.append_assoc]
    exact (ih depth _ _ _ rest hclosing (.inr rfl)).map rfl
  | link _ hdindexes hdmember ihargs ihindexes ihmember =>
    exact ihargs.link hdindexes ihindexes hdmember ihmember
  | noArguments =>
    intro depth rest hrest
    exact .of_eq (by omega) (seen_arguments_other _ hrest)
  | arguments hopening hclosing _ ih =>
    intro depth rest _
    rw [List.cons_append, seen_arguments_cons, if_pos hopening, List.append_assoc]
    exact (ih depth _ _ _ rest hclosing (.inl rfl)).map rfl
  | noIndex =>
    intro depth rest hrest
    exact .of_eq (by omega) (seen_indexes_other _ _ hrest)
  | index hopening hclosing hd _ ihoffset ih => exact ihoffset.index hopening hclosing hd ih
  | noMember =>
    intro depth rest hrest
    exact .of_eq (by omega) (seen_member_other ending _ _ hrest.dot)
  | member hpoint hname hd ih =>
    intro depth rest hrest
    have hpos := hd.nesting_pos
    rw [List.cons_append, List.cons_append, seen_member_name ending _ _ hpoint, if_pos hname]
    cases depth with
    | zero => exact ⟨fun hn => by omega, fun _ => ⟨_, rfl, rfl⟩⟩
    | succ depth => exact (ih depth rest hrest).congr (by omega)
  | noDimension =>
    intro depth rest hrest
    exact .of_eq (by omega) (seen_dimensions_other _ hrest)
  | unsized hopening hclosing _ ih =>
    intro depth rest hrest
    rw [List.cons_append, seen_dimensions_cons, if_pos hopening, seen_size]
    rw [if_pos (by simp [hclosing])]
    exact (ih depth rest hrest).map rfl
  | sized hopening hclosing hd _ ihsize ih => exact ihsize.sized hopening hclosing hd ih
  | noItems =>
    intro depth close defect closing rest hclosing _
    refine .of_eq (by omega) ?_
    rw [List.nil_append, seen_enclosed, if_pos (by simp [hclosing])]
    rfl
  | items hd ih =>
    intro depth close defect closing rest hclosing hclose
    obtain ⟨t, us, rfl, hparen, hbracket⟩ := hd.starts
    subst hclosing
    obtain ⟨hended, hbounded, hcomma⟩ := ended_of_closing hclose
    rw [seen_enclosed, if_neg (by rcases hclose with h | h <;> simp [h, hparen, hbracket])]
    exact (ih depth _ hended hbounded hcomma).map (by simp)
  | last hd ih =>
    intro depth rest hended hbounded hcomma
    rw [seen_list]
    refine ((ih.expression hd (Nat.le_refl 0) hended hbounded depth).map ?_).congr (by omega)
    simp only [seen_listTail_other _ hcomma]
    rfl
  | more hcomma hd _ ihhead ih => exact ihhead.more hcomma hd ih

/-- A run that the grammar derives is read as what it denotes if its nesting is allowed, and refused
for its nesting otherwise. -/
theorem Derives.parse {run : List Token} (h : Derives (.tier 0 e) n (body run)) :
    Settles (n ≤ maxNesting) (parse run) (.ok e) := by
  have hread := (h.completes (endingOf run)).expression h (Nat.le_refl 0) .nil (by simp [Bounded]) maxNesting
  rw [List.append_nil] at hread
  rw [parse_eq]
  exact hread.map rfl

/-- A reading that is settled and leaves nothing over reads its whole run, or is refused for its
nesting. -/
theorem Settles.complete {α : Type} {bound : Nat} {fits : Prop} {reading : Reading α bound}
    {value : α} (h : Settles fits (seen reading) (.ok (value, []))) :
    Settles fits (reading >>= complete) (.ok value) := by
  constructor
  · intro hfits
    have hseen := h.1 hfits
    cases reading with
    | error defect => cases hseen
    | ok taken =>
      simp only [seen_ok, Except.ok.injEq, Prod.mk.injEq] at hseen
      obtain ⟨rfl, hrest⟩ := hseen
      show Expr.complete taken = _
      rw [Expr.complete, hrest]
  · intro hnot
    obtain ⟨defect, hseen, hcause⟩ := h.2 hnot
    cases reading with
    | error defect' =>
      cases hseen
      exact ⟨defect, rfl, hcause⟩
    | ok taken => cases hseen

/-- A run that the grammar derives as a list is read as its expressions, unless it is nested too
deeply. -/
theorem Derives.parseList {run : List Token} {es : List Expr}
    (h : Derives (.list es) n (body run)) :
    Settles (n ≤ maxNesting + 1) (parseList run) (.ok es) := by
  have hread := h.completes (endingOf run) maxNesting [] .nil (by simp [Bounded]) (by simp)
  rw [List.append_nil] at hread
  exact hread.complete

/-- A type name with brackets that the grammar derives is read as a type, unless a size is nested
too deeply. -/
theorem Derives.parseType {run : List Token} {t : Token} {name : Primitive}
    {sizes : List (Option Expr)} (hbody : body run = t :: ts) (ht : t.kind = .type name)
    (h : Derives (.dimensions sizes) n ts) :
    Settles (n ≤ maxNesting + 1) (parseType run) (.ok (typeName name sizes t.position)) := by
  have hread := h.completes (endingOf run) maxNesting [] (by simp)
  rw [List.append_nil] at hread
  have hparse : Expr.parseType run =
      (dimensions (readers run).expression ts >>= fun taken =>
        Except.ok (taken.map (typeName name · t.position))) >>= complete := by
    simp only [Expr.parseType, hbody, ht]
    cases dimensions (readers run).expression ts <;> rfl
  rw [hparse]
  refine Settles.complete ?_
  rw [seen_bind (g := fun seen => .ok (typeName name seen.1 t.position, seen.2)) fun _ => rfl]
  exact hread.map rfl

/-- A run denotes at most one expression, whatever its nesting: with enough levels for both
derivations, the readers would give both. -/
theorem Derives.unique {e' : Expr} {m : Nat} (h : Derives (.tier 0 e) m ts)
    (h' : Derives (.tier 0 e') n ts) : e = e' := by
  have hread := (h.completes (endingOf ts)).expression h (Nat.le_refl 0) .nil (by simp [Bounded]) (max m n)
  have hread' := (h'.completes (endingOf ts)).expression h' (Nat.le_refl 0) .nil (by simp [Bounded]) (max m n)
  have hsame := (hread.1 (by omega)).symm.trans (hread'.1 (by omega))
  cases hsame
  rfl

/-- Without a token for the end of the text, all of a run is read. -/
theorem body_eq_self {ts : List Token} (h : ∀ t ∈ ts, t.kind ≠ .eof) : body ts = ts := by
  rw [body, ← List.append_nil ts, List.takeWhile_append_of_pos (by simpa using h)]
  rfl

/-- Reading an expression and the grammar agree, positions included: a run is read as `e` exactly if
it derives `e` with a nesting of at most `maxNesting`, and it derives no other expression. -/
theorem parse_iff_derives {ts : List Token} (heof : ∀ t ∈ ts, t.kind ≠ .eof) :
    (∀ e, parse ts = .ok e ↔ ∃ n ≤ maxNesting, Derives (.tier 0 e) n ts) ∧
      ∀ e e' m n, Derives (.tier 0 e) m ts → Derives (.tier 0 e') n ts → e = e' := by
  refine ⟨fun e => ⟨fun h => ?_, fun ⟨n, hn, h⟩ => ?_⟩, fun e e' m n h h' => h.unique h'⟩
  · obtain ⟨n, hn, hderives⟩ := derives_of_parse h
    rw [body_eq_self heof] at hderives
    exact ⟨n, hn, hderives⟩
  · rw [← body_eq_self heof] at h
    exact h.parse.1 hn

/-- The run `a - b * c`. -/
private def differenceRun : List Token :=
  [⟨.identifier, "a", ⟨1, 1⟩⟩, ⟨.operator (.arithmetic .sub), "-", ⟨1, 3⟩⟩,
    ⟨.identifier, "b", ⟨1, 5⟩⟩, ⟨.operator (.arithmetic .mul), "*", ⟨1, 7⟩⟩,
    ⟨.identifier, "c", ⟨1, 9⟩⟩]

/-- The product in `a - b * c` is the right operand of the difference. -/
theorem parse_difference :
    (∀ t ∈ differenceRun, t.kind ≠ .eof) ∧
      parse differenceRun = .ok (.binary (.arithmetic .sub) (.ident "a" ⟨1, 1⟩)
        (.binary (.arithmetic .mul) (.ident "b" ⟨1, 5⟩) (.ident "c" ⟨1, 9⟩) ⟨1, 7⟩) ⟨1, 3⟩) := by
  have heof : ∀ t ∈ differenceRun, t.kind ≠ .eof := by decide
  have hname : ∀ k name, k ≤ tierCount → name.kind = .identifier →
      Derives (.tier k (.ident name.lexeme name.position)) 1 [name] := fun k name hk hkind =>
    .loosen hk (.unary (.stepped (.primary (.chain hkind (.link .noArguments .noIndex .noMember)))))
  have hsub : BinaryOp.arithmetic .sub ∈ tier 4 := by decide
  have hmul : BinaryOp.arithmetic .mul ∈ tier 5 := by decide
  have hproduct := (hname 5 ⟨.identifier, "b", ⟨1, 5⟩⟩ (by decide) rfl).binary hmul
    (t := ⟨.operator (.arithmetic .mul), "*", ⟨1, 7⟩⟩) rfl
    (hname 6 ⟨.identifier, "c", ⟨1, 9⟩⟩ (by decide) rfl)
  have hdifference := (hname 4 ⟨.identifier, "a", ⟨1, 1⟩⟩ (by decide) rfl).binary hsub
    (t := ⟨.operator (.arithmetic .sub), "-", ⟨1, 3⟩⟩) rfl hproduct
  exact ⟨heof, ((parse_iff_derives heof).1 _).2 ⟨_, by decide, hdifference.loosen (Nat.zero_le 4)⟩⟩

end Sprout.Expr
