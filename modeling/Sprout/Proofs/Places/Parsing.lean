import Sprout.Proofs.Places.Checks
import Sprout.Proofs.Statements.Runs

namespace Sprout

/-- The place just behind a token, as if it stood on one line. -/
def Token.ending (t : Token) : Position :=
  ⟨t.position.line, t.position.column + t.width⟩

/-- A token takes as many columns as its lexeme has characters. -/
theorem Token.width_eq_length {t : Token} (hlexeme : t.lexeme ≠ "") :
    t.width = t.lexeme.toList.length := by
  have hlength : t.lexeme.toList.length = t.lexeme.length := rfl
  have hpositive : 0 < t.lexeme.length := by
    rw [← hlength, List.length_pos_iff]
    simpa using hlexeme
  rw [Token.width, hlength]
  omega

variable {P : Position → Prop}

/-- Whether an expression cannot end with the token, since an operand or a name has to follow. The
end of a run is blamed only behind such a token. -/
def Token.Kind.leavesOpen : Kind → Bool
  | operator _ | bang | step _ | openParen | openBracket | comma | dot => true
  | _ => false

/-- Whether the tokens of a run take part in a program and start at the places `P`, and those that
leave an expression open end there too. -/
def Token.AllIn (P : Position → Prop) (run : List Token) : Prop :=
  ∀ t ∈ run, P t.position ∧ t.kind ≠ .eof ∧ (t.kind.leavesOpen = true → P t.ending)

namespace Token.AllIn

variable {run before after : List Token} {mid : Token}

/-- Some of the tokens of a run stand at such places too. -/
theorem of_subset (h : AllIn P run) (hsubset : before ⊆ run) : AllIn P before :=
  fun t ht => h t (hsubset ht)

/-- The parts that a run is cut into. -/
theorem of_splitTop {p : Token.Kind → Bool} (h : AllIn P run)
    (hsplit : Token.splitTop p 0 run = some (before, mid, after)) :
    AllIn P before ∧ P mid.position ∧ AllIn P after := by
  obtain ⟨rfl, -⟩ := Token.eq_append_of_splitTop hsplit
  simp only [AllIn, List.forall_mem_append, List.forall_mem_cons] at h
  exact ⟨h.1, h.2.1.1, h.2.2⟩

/-- Sending all other places elsewhere moves none of these tokens. A claim about places is proved as
one about moving them. -/
theorem relocate_eq (h : AllIn P run) : run.map (Token.relocate (shunt P)) = run := by
  refine map_eq_self_iff.2 fun t ht => ?_
  have hposition : shunt P t.position = t.position := shunt_eq_iff.2 (h t ht).1
  rw [Token.relocate, hposition]

end Token.AllIn

namespace Expr

section Readers

/-- Whether the tokens in front of an `ending` start at the places `P`, and the ending is such a
place too if the last of them leaves an expression open. -/
structure Ahead (P : Position → Prop) (ending : Defect Malformed) (ts : List Token) : Prop where
  positions : ∀ t ∈ ts, P t.position
  last : ∀ t ∈ ts.getLast?, t.kind.leavesOpen = true → P ending.position

/-- Whether an operand can be read from such tokens: the ending is a place of `P` also if there are
none. -/
structure Awaited (P : Position → Prop) (ending : Defect Malformed) (ts : List Token) : Prop
    extends Ahead P ending ts where
  missing : ts = [] → P ending.position

/-- Whether a reading, if it refuses, points into the places `P`, and otherwise leaves such tokens
over. -/
def StaysIn (P : Position → Prop) (ending : Defect Malformed) {α : Type} {bound : Nat} :
    Reading α bound → Prop
  | .error defect => P defect.position
  | .ok taken => Ahead P ending taken.rest

variable {α β : Type} {m n : Nat} {ts rest : List Token} {t : Token} {ending : Defect Malformed}

namespace Ahead

/-- The next token stands at such a place. -/
theorem head (h : Ahead P ending (t :: rest)) : P t.position :=
  h.positions t List.mem_cons_self

/-- The tokens behind the next one stand at such places. -/
theorem tail (h : Ahead P ending (t :: rest)) : Ahead P ending rest := by
  refine ⟨fun t' ht' => h.positions t' (List.mem_cons_of_mem t ht'), fun last hlast => h.last last ?_⟩
  rw [List.getLast?_cons, Option.mem_def.1 hlast]
  rfl

/-- Behind a token that leaves an expression open, an operand can be read. -/
theorem behind (h : Ahead P ending (t :: rest)) (ht : t.kind.leavesOpen = true) :
    Awaited P ending rest := by
  refine ⟨h.tail, fun hrest => ?_⟩
  rw [hrest] at h
  exact h.last t rfl ht

end Ahead

/-- Readings that follow each other stay at such places if each one does for the tokens that the one
before it leaves. -/
theorem staysIn_bind {x : Reading α m} {f : Taken α m → Reading β n} (hx : StaysIn P ending x)
    (hf : ∀ taken, Ahead P ending taken.rest → StaysIn P ending (f taken)) :
    StaysIn P ending (x >>= f) := by
  cases x with
  | error defect => exact hx
  | ok taken => exact hf taken hx

/-- A reading that leaves tokens where none may be left is blamed on the first of them. -/
theorem StaysIn.refusesIn_complete {x : Reading α n} (hx : StaysIn P ending x)
    {f : Taken α n → Taken β m} (hf : ∀ taken, (f taken).rest = taken.rest) :
    RefusesIn P (x >>= fun taken => complete (f taken)) := by
  cases x with
  | error defect =>
    have hdefect : P defect.position := hx
    simpa [bind, Except.bind, ShownIn, HasPlace.place?] using hdefect
  | ok taken =>
    change RefusesIn P (complete (f taken))
    have hrest : Ahead P ending (f taken).rest := (hf taken).symm ▸ hx
    unfold complete
    split
    · simp
    · rename_i t others hothers
      rw [hothers] at hrest
      simpa using hrest.head

/-- Whether a reader points into the places `P` wherever an operand can be read. -/
def ReadsIn (P : Position → Prop) (ending : Defect Malformed) (read : ExpressionReader) : Prop :=
  ∀ floor ts, Awaited P ending ts → StaysIn P ending (read floor ts)

/-- Whether a reader of what follows a name does so. -/
def LinksIn (P : Position → Prop) (ending : Defect Malformed) (link : LinkReader) : Prop :=
  ∀ bare called ts, Ahead P ending ts → StaysIn P ending (link bare called ts)

/-- A token of a kind that is expected is there, or what is missing is blamed on the place given for
it. -/
theorem staysIn_expect {kind : Token.Kind} {defect : Defect Malformed} (hdefect : P defect.position)
    (hts : Ahead P ending ts) : StaysIn P ending (expect kind defect ts) := by
  cases ts with
  | nil => exact hdefect
  | cons t rest =>
    unfold expect
    dsimp only
    split
    · exact hts.tail
    · exact hdefect

variable {read : ExpressionReader} (hread : ReadsIn P ending read)

include hread

/-- The expressions behind the first one of a list are read at such places. Behind a comma an
operand is awaited. -/
theorem staysIn_listTail :
    ∀ ts : List Token, Ahead P ending ts → StaysIn P ending (listTail read ts)
  | [], hts => by
    rw [listTail]
    exact hts
  | t :: rest, hts => by
    rw [listTail]
    split
    · rename_i hcomma
      have hrest : Awaited P ending rest := hts.behind (by rw [hcomma]; rfl)
      refine staysIn_bind (hread 0 rest hrest) fun head hhead => ?_
      exact staysIn_bind (staysIn_listTail head.rest hhead) fun tail htail => htail
    · exact hts
termination_by ts => ts.length
decreasing_by exact Nat.lt_succ_of_lt head.short

/-- Expressions between commas are read at such places. -/
theorem staysIn_list (hts : Awaited P ending ts) : StaysIn P ending (list read ts) := by
  refine staysIn_bind (hread 0 ts hts) fun head hhead => ?_
  exact staysIn_bind (staysIn_listTail hread head.rest hhead) fun tail htail => htail

/-- A list up to a closing bracket is read at such places, and a bracket that is missing is blamed
on the opening one. -/
theorem staysIn_closed {close : Token.Kind} {defect : Defect Malformed}
    (hdefect : P defect.position) (hts : Awaited P ending ts) :
    StaysIn P ending (closed read close defect ts) := by
  refine staysIn_bind (hread 0 ts hts) fun inner hinner => ?_
  exact staysIn_bind (staysIn_expect hdefect hinner) fun closing hclosing => hclosing

/-- A list between brackets, which may be empty, is read at such places. -/
theorem staysIn_enclosed {close : Token.Kind} {defect : Defect Malformed}
    (hdefect : P defect.position) (hts : Awaited P ending ts) :
    StaysIn P ending (enclosed read close defect ts) := by
  have hclosing : StaysIn P ending (expect close defect ts) := staysIn_expect hdefect hts.toAhead
  unfold enclosed
  split
  · rename_i closing hfound
    rw [hfound] at hclosing
    exact hclosing
  · refine staysIn_bind (staysIn_list hread hts) fun items hitems => ?_
    exact staysIn_bind (staysIn_expect hdefect hitems) fun closing hclosing => hclosing

/-- An index between brackets is read at such places. -/
theorem staysIn_offset {opening : Token} (hopening : P opening.position)
    (hts : Awaited P ending ts) : StaysIn P ending (offset read opening ts) := by
  unfold offset
  split
  · exact hopening
  · exact staysIn_closed hread hopening hts

/-- Any number of indexes are read at such places. -/
theorem staysIn_indexes : ∀ (receiver : Expr) (ts : List Token), Ahead P ending ts →
    StaysIn P ending (indexes read receiver ts)
  | receiver, [], hts => by
    rw [indexes]
    exact hts
  | receiver, opening :: rest, hts => by
    rw [indexes]
    split
    · rename_i hopening
      have hrest : Awaited P ending rest := hts.behind (by rw [hopening]; rfl)
      refine staysIn_bind (staysIn_offset hread hts.head hrest) fun first hfirst => ?_
      exact staysIn_bind (staysIn_indexes _ first.rest hfirst) fun all hall => hall
    · exact hts
termination_by _ ts => ts.length
decreasing_by exact Nat.lt_succ_of_lt first.short

/-- The size of a dimension, or none, is read at such places. -/
theorem staysIn_size? {opening : Token} (hopening : P opening.position)
    (hts : Awaited P ending ts) : StaysIn P ending (size? read opening ts) := by
  have hclosing : StaysIn P ending (expect .closeBracket (opening.defect .unclosedIndex) ts) :=
    staysIn_expect hopening hts.toAhead
  unfold size?
  split
  · rename_i closing hfound
    rw [hfound] at hclosing
    exact hclosing
  · exact staysIn_bind (staysIn_closed hread hopening hts) fun size hsize => hsize

/-- The dimensions of a type are read at such places. -/
theorem staysIn_dimensions :
    ∀ ts : List Token, Ahead P ending ts → StaysIn P ending (dimensions read ts)
  | [], hts => by
    rw [dimensions]
    exact hts
  | opening :: rest, hts => by
    rw [dimensions]
    split
    · rename_i hopening
      have hrest : Awaited P ending rest := hts.behind (by rw [hopening]; rfl)
      refine staysIn_bind (staysIn_size? hread hts.head hrest) fun first hfirst => ?_
      exact staysIn_bind (staysIn_dimensions first.rest hfirst) fun others hothers => hothers
    · exact hts
termination_by ts => ts.length
decreasing_by exact Nat.lt_succ_of_lt first.short

/-- The arguments of a call, if there are any, are read at such places. -/
theorem staysIn_arguments? (hts : Ahead P ending ts) :
    StaysIn P ending (arguments? read ts) := by
  cases ts with
  | nil => exact hts
  | cons opening rest =>
    unfold arguments?
    dsimp only
    split
    · rename_i hopening
      have hrest : Awaited P ending rest := hts.behind (by rw [hopening]; rfl)
      exact staysIn_bind (staysIn_enclosed hread hts.head hrest) fun args hargs => hargs
    · exact hts

omit hread

/-- What stands behind a dot is read at such places. A dot leaves the expression open, so the end
behind it is such a place. -/
theorem staysIn_member {deeper : Option LinkReader}
    (hdeeper : ∀ link ∈ deeper, LinksIn P ending link) (receiver : Expr)
    (hts : Ahead P ending ts) : StaysIn P ending (member ending deeper receiver ts) := by
  cases ts with
  | nil => exact hts
  | cons point rest =>
    unfold member
    dsimp only
    split
    · rename_i hpoint
      have hrest : Awaited P ending rest := hts.behind (by rw [hpoint]; rfl)
      split
      · exact hrest.missing rfl
      · rename_i name rest
        split
        · split
          · exact hrest.head
          · rename_i link
            exact staysIn_bind (hdeeper link rfl _ _ rest hrest.tail) fun all hall => hall
        · exact hrest.head
    · exact hts

/-- One more link of a chain is read at such places, if all deeper links are. -/
theorem linksIn_linkWith (hread : ReadsIn P ending read) {deeper : Option LinkReader}
    (hdeeper : ∀ link ∈ deeper, LinksIn P ending link) :
    LinksIn P ending (linkWith ending read deeper) := by
  intro bare called ts hts
  refine staysIn_bind (staysIn_arguments? hread hts) fun args hargs => ?_
  refine staysIn_bind (staysIn_indexes hread _ args.rest hargs) fun indexed hindexed => ?_
  exact staysIn_bind (staysIn_member hdeeper indexed.value hindexed) fun all hall => hall

/-- Behind a step, what is left of the tokens still stands at such places. -/
theorem rest_stepsAfter (e : Expr) (hts : Ahead P ending ts) :
    Ahead P ending (stepsAfter e ts).rest := by
  induction ts generalizing e with
  | nil => exact hts
  | cons t rest ih =>
    unfold stepsAfter
    split
    · exact ih _ hts.tail
    · exact hts

/-- An operator in front of an operand leaves an expression open. -/
theorem leavesOpen_of_leading? {kind : Token.Kind} {build : Expr → Position → Expr}
    (h : leading? kind = some build) : kind.leavesOpen = true := by
  unfold leading? at h
  split at h <;> cases h <;> rfl

section Levels

variable {below : Level} (hexpression : ReadsIn P ending below.expression)
  (hlink : LinksIn P ending below.link)

include hexpression hlink

/-- An operand is read at such places, whatever its first token is. What it blames is that token,
one behind it, or the end of the run. -/
theorem staysIn_operand (hts : Ahead P ending (t :: rest)) :
    StaysIn P ending (operand below t rest) := by
  have ht : P t.position := hts.head
  have hrest : Ahead P ending rest := hts.tail
  unfold operand
  split <;> rename_i hkind
  · exact hrest
  · exact hrest
  · exact hrest
  · exact hrest
  · split
    · exact hrest
    · exact ht
  · exact hrest
  · exact hrest
  · exact hlink _ _ rest hrest
  · refine staysIn_bind (staysIn_dimensions hexpression rest hrest) fun sizes hsizes => ?_
    exact staysIn_bind (staysIn_arguments? hexpression hsizes) fun args hargs => hargs
  · have hinside : Awaited P ending rest := hts.behind (by rw [hkind]; rfl)
    exact staysIn_bind (staysIn_closed hexpression ht hinside) fun inner hinner => hinner
  · have hinside : Awaited P ending rest := hts.behind (by rw [hkind]; rfl)
    exact staysIn_bind (staysIn_enclosed hexpression ht hinside) fun elements helements => helements
  · exact ht
  · exact ht

/-- Any number of signs in front of an operand are read at such places. Each of them leaves the
expression open. -/
theorem staysIn_unaryOperand (hts : Awaited P ending ts) :
    StaysIn P ending (unaryOperand ending below ts) := by
  cases ts with
  | nil => exact hts.missing rfl
  | cons t rest =>
    unfold unaryOperand
    dsimp only
    split
    · rename_i build hbuild
      have hrest : Awaited P ending rest := hts.behind (leavesOpen_of_leading? hbuild)
      exact staysIn_bind (hexpression _ rest hrest) fun inner hinner => hinner
    · refine staysIn_bind (staysIn_operand hexpression hlink hts.toAhead) fun inner hinner => ?_
      exact rest_stepsAfter inner.value hinner

omit hlink in
/-- The operators behind an operand, with theirs, are read at such places. -/
theorem staysIn_binaryTail (floor : Nat) : ∀ (left : Expr) (ts : List Token),
    Ahead P ending ts → StaysIn P ending (binaryTail below.expression floor left ts)
  | left, [], hts => by
    rw [binaryTail]
    exact hts
  | left, t :: rest, hts => by
    rw [binaryTail.eq_def]
    dsimp only
    split
    · rename_i op hoperator
      split
      · exact hts
      · have hrest : Awaited P ending rest := hts.behind (by rw [hoperator]; rfl)
        refine staysIn_bind (hexpression _ rest hrest) fun right hright => ?_
        exact staysIn_bind (staysIn_binaryTail floor _ right.rest hright) fun all hall => hall
    · exact hts
termination_by _ ts => ts.length
decreasing_by exact Nat.lt_succ_of_lt right.short

/-- A whole expression is read at such places, if the deeper ones are. -/
theorem readsIn_expressionWith : ReadsIn P ending (expressionWith ending below) := by
  intro floor ts hts
  refine staysIn_bind (staysIn_unaryOperand hexpression hlink hts) fun left hleft => ?_
  exact staysIn_bind (staysIn_binaryTail hexpression floor left.value left.rest hleft)
    fun all hall => hall

end Levels

/-- What is nested too deeply is blamed on the token that it starts with. -/
theorem readsIn_refuse : ReadsIn P ending (refuse ending) := by
  intro floor ts hts
  cases ts with
  | nil => exact hts.missing rfl
  | cons t rest => exact hts.head

variable (P ending) in
/-- At every level of nesting, the readers blame what they are given. -/
theorem readsIn_level (depth : Nat) :
    ReadsIn P ending (level ending depth).expression ∧
      LinksIn P ending (level ending depth).link := by
  induction depth with
  | zero =>
    have hrefuse : ReadsIn P ending (refuse ending) := readsIn_refuse
    exact ⟨hrefuse, linksIn_linkWith hrefuse (by simp)⟩
  | succ depth ih =>
    have hexpression : ReadsIn P ending (expressionWith ending (level ending depth)) :=
      readsIn_expressionWith ih.1 ih.2
    exact ⟨hexpression, linksIn_linkWith hexpression (by simpa using ih.2)⟩

end Readers

section Runs

variable {run : List Token} (hrun : Token.AllIn P run)

include hrun

/-- A run that stops too early is shown behind its last token, and an empty one at the start of the
text. -/
theorem awaited_body (hempty : run = [] → P .start) : Awaited P (endingOf run) (body run) := by
  rw [body_eq_self fun t ht => (hrun t ht).2.1]
  refine ⟨⟨fun t ht => (hrun t ht).1, fun t hlast hopen => ?_⟩, fun hnil => ?_⟩
  · rw [endingOf, Option.mem_def.1 hlast]
    exact (hrun t (List.mem_of_getLast? hlast)).2.2 hopen
  · have hstart : (endingOf run).position = .start := by rw [hnil]; rfl
    rw [hstart]
    exact hempty hnil

/-- A run that is no expression is blamed on one of its tokens or on the place behind one, and on
the start of the text if it is empty. -/
theorem refusesIn_parse (hempty : run = [] → P .start) : RefusesIn P (parse run) := by
  have hread := (readsIn_level P (endingOf run) maxNesting).1
  exact (hread 0 _ (awaited_body hrun hempty)).refusesIn_complete fun _ => rfl

/-- A run that is no list of expressions is blamed on such a place as well. -/
theorem refusesIn_parseList (hempty : run = [] → P .start) : RefusesIn P (parseList run) := by
  have hread := (readsIn_level P (endingOf run) maxNesting).1
  exact (staysIn_list hread (awaited_body hrun hempty)).refusesIn_complete fun _ => rfl

/-- A run that is no type is blamed on such a place as well. -/
theorem refusesIn_parseType (hempty : run = [] → P .start) : RefusesIn P (parseType run) := by
  have hread := (readsIn_level P (endingOf run) maxNesting).1
  have hbody := awaited_body hrun hempty
  unfold parseType
  split
  · rename_i hnil
    simpa [ShownIn, HasPlace.place?] using hbody.missing hnil
  · rename_i t rest hsplit
    rw [hsplit] at hbody
    split
    · exact (staysIn_dimensions hread rest hbody.tail).refusesIn_complete fun _ => rfl
    · simpa using hbody.head

/-- All parts of an expression stand where tokens of its run do. -/
theorem standsIn_of_parse {e : Expr} (h : parse run = .ok e) : e.StandsIn P := by
  have hmoved := parse_relocate (shunt P) h
  rw [hrun.relocate_eq, h] at hmoved
  exact (Except.ok.inj hmoved).symm

/-- All parts of several expressions stand where tokens of their run do. -/
theorem standsIn_of_parseList {es : List Expr} (h : parseList run = .ok es) :
    ∀ e ∈ es, e.StandsIn P := by
  have hmoved := parseList_relocate (shunt P) h
  rw [hrun.relocate_eq, h] at hmoved
  exact map_eq_self_iff.1 (Except.ok.inj hmoved).symm

/-- All parts of a type stand where tokens of its run do. -/
theorem standsIn_of_parseType {e : Expr} (h : parseType run = .ok e) : e.StandsIn P := by
  have hmoved := parseType_relocate (shunt P) h
  rw [hrun.relocate_eq, h] at hmoved
  exact (Except.ok.inj hmoved).symm

end Runs

end Expr

end Sprout
