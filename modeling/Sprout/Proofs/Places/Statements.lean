import Sprout.Proofs.Capture
import Sprout.Proofs.Places.Parsing

namespace Sprout

variable {P : Position → Prop}

/-- A part that is missing is shown at the token beside it. -/
theorem refusesIn_require {part : Part} {beside : Token} {run : List Token}
    (hbeside : P beside.position) : RefusesIn P (require part beside run) := by
  unfold require
  split <;> simp [hbeside]

/-- A part that is required and found holds a token. -/
theorem ne_nil_of_require {part : Part} {beside : Token} {run run' : List Token}
    (h : require part beside run = .ok run') : run' ≠ [] := by
  unfold require at h
  split at h
  · cases h
  · rename_i hne
    cases h
    exact hne

namespace Statement

/-- Whether the tokens of a statement stand in the places `P`, and so do the places behind those
that leave an expression open. -/
def StandsIn (P : Position → Prop) (s : Statement) : Prop :=
  Token.AllIn P s.tokens

variable {s : Statement} (hs : s.StandsIn P)

include hs

/-- The first token of a statement stands at such a place. -/
theorem StandsIn.lead : P s.lead.position :=
  (hs s.lead List.mem_cons_self).1

/-- The other tokens of a statement stand at such places. -/
theorem StandsIn.rest : Token.AllIn P s.rest :=
  hs.of_subset (List.subset_cons_self s.lead s.rest)

/-- Sending all other places elsewhere does not move such a statement. -/
theorem StandsIn.relocate_eq : s.relocate (shunt P) = s := by
  have hlead : s.lead.relocate (shunt P) = s.lead := by
    rw [Token.relocate, shunt_eq_iff.2 hs.lead]
  rw [relocate, hlead, hs.rest.relocate_eq]

end Statement

namespace Declaration

/-- Whether the parts of a declaration stand in the places `P`. -/
structure StandsIn (P : Position → Prop) (d : Declaration) : Prop where
  keyword : P d.keyword.position
  names : ∀ name ∈ d.names, P name.position
  type : ∀ e ∈ d.type, e.StandsIn P
  initializers : ∀ e ∈ d.initializers, e.StandsIn P

section Reading

variable {s : Statement} {d : Declaration}

/-- A declaration that stays where it is when all other places are sent elsewhere stands at such
places. -/
theorem StandsIn.of_relocate (h : d.relocate (shunt P) = d) : d.StandsIn P := by
  have hkeyword := congrArg (fun d => d.keyword.position) h
  have hnames := congrArg Declaration.names h
  have htype := congrArg Declaration.type h
  have hinitializers := congrArg Declaration.initializers h
  rw [names_relocate] at hnames
  refine ⟨shunt_eq_iff.1 hkeyword, fun name hname => ?_, fun e he => ?_,
    map_eq_self_iff.1 hinitializers⟩
  · exact shunt_eq_iff.1 (congrArg Token.position (map_eq_self_iff.1 hnames name hname))
  · simp only [relocate, Option.mem_def.1 he, Option.map_some, Option.some.injEq] at htype
    exact htype

/-- A declaration stands where the tokens it is read from do. -/
theorem standsIn_of_read (hs : s.StandsIn P) (h : read s = .ok d) : d.StandsIn P := by
  have hmoved := read_relocate (shunt P) h
  rw [hs.relocate_eq, h] at hmoved
  exact .of_relocate (Except.ok.inj hmoved).symm

/-- Names that cannot be read are blamed on the first token that is none, or on the keyword if one
is missing. -/
theorem refusesIn_readNames {keyword : Token} (hkeyword : P keyword.position)
    {pieces : List (List Token)} (hpieces : ∀ piece ∈ pieces, ∀ t ∈ piece, P t.position) :
    RefusesIn P (readNames keyword pieces) := by
  induction pieces with
  | nil => simp [readNames]
  | cons piece pieces ih =>
    rw [List.forall_mem_cons] at hpieces
    unfold readNames
    split
    · rename_i t
      have ht : P t.position := hpieces.1 t List.mem_cons_self
      simp [ih hpieces.2, ht]
    · cases piece with
      | nil => simpa using hkeyword
      | cons t piece => simpa using hpieces.1 t List.mem_cons_self

/-- The names between the commas of a run stand in the run. -/
theorem positions_splitCommas {run : List Token} (hrun : Token.AllIn P run) :
    ∀ piece ∈ Token.splitCommas run, ∀ t ∈ piece, P t.position :=
  fun piece hpiece t ht => (hrun t (Token.subset_of_mem_splitCommas piece hpiece ht)).1

/-- The parts in front of a sign and behind it stand at such places, and so does the sign. -/
theorem allIn_cut (kind : Token.Kind) {run : List Token} (hrun : Token.AllIn P run) :
    Token.AllIn P (cut kind run).1 ∧
      ∀ part ∈ (cut kind run).2, P part.1.position ∧ Token.AllIn P part.2 := by
  rcases cut_cases kind run with hcut | ⟨before, mid, after, hcut, rfl, -⟩ <;> rw [hcut]
  · exact ⟨hrun, by simp⟩
  · simp only [Token.AllIn, List.forall_mem_append, List.forall_mem_cons] at hrun
    exact ⟨hrun.1, by simpa using ⟨hrun.2.1.1, hrun.2.2⟩⟩

variable {part : Option (Token × List Token)}
  (hpart : ∀ found ∈ part, P found.1.position ∧ Token.AllIn P found.2)

include hpart

/-- A type that is missing is blamed on the colon, and one that cannot be read on its tokens. -/
theorem refusesIn_readType : RefusesIn P (readType part) := by
  cases part with
  | none => simp [readType]
  | some part =>
    obtain ⟨colon, run⟩ := part
    obtain ⟨hcolon, hrun⟩ := hpart _ rfl
    simp only [readType, refusesIn_bind_iff, refusesIn_ok, implies_true, and_true]
    refine ⟨refusesIn_require hcolon, fun run' hrequire => ?_⟩
    have hne := ne_nil_of_require hrequire
    rw [require_eq_ok hrequire] at hne ⊢
    exact Expr.refusesIn_parseType hrun (absurd · hne)

/-- Initial values that are missing are blamed on the sign in front of them, and others on their
tokens. -/
theorem refusesIn_readInitializers : RefusesIn P (readInitializers part) := by
  cases part with
  | none => simp [readInitializers]
  | some part =>
    obtain ⟨equal, run⟩ := part
    obtain ⟨hequal, hrun⟩ := hpart _ rfl
    simp only [readInitializers, refusesIn_bind_iff]
    refine ⟨refusesIn_require hequal, fun run' hrequire => ?_⟩
    have hne := ne_nil_of_require hrequire
    rw [require_eq_ok hrequire] at hne ⊢
    exact Expr.refusesIn_parseList hrun (absurd · hne)

omit hpart

/-- A declaration that cannot be read is blamed on its tokens. -/
theorem refusesIn_read (hs : s.StandsIn P) : RefusesIn P (read s) := by
  obtain ⟨hhead, hinitial⟩ := allIn_cut .equal hs.rest
  obtain ⟨hnamed, htyped⟩ := allIn_cut .colon hhead
  have hnames := refusesIn_readNames hs.lead (positions_splitCommas hnamed)
  simp only [read, refusesIn_bind_iff, refusesIn_liftM_violation_iff]
  refine ⟨hnames, fun names _ => ?_⟩
  cases names with
  | nil => simpa using hs.lead
  | cons name others =>
    simp [refusesIn_readType htyped, refusesIn_readInitializers hinitial]

end Reading

section Plan

variable {d : Declaration} (hd : d.StandsIn P) (scopes : Scopes)

include hd

/-- An initial value that reads a name hidden by the declaration is blamed where it stands. -/
theorem refusesIn_checkShadowing : RefusesIn P (d.checkShadowing scopes) := by
  unfold checkShadowing
  dsimp only
  split
  · simp
  · rename_i name e hfound
    obtain ⟨hidden, -, hreader⟩ := List.exists_of_findSome?_eq_some hfound
    obtain ⟨e', he', heq⟩ := Option.map_eq_some_iff.1 hreader
    cases heq
    have he : e ∈ d.initializers := List.mem_of_find?_eq_some he'
    simpa using (hd.initializers e he).position

/-- A constant without a value, and a variable without a value and a type, is blamed on its
keyword. -/
theorem pointsIn_planDefault (type : Option Ty) : (d.planDefault type).PointsIn P := by
  unfold planDefault
  split
  · simpa using hd.keyword
  · cases type with
    | none => simpa using hd.keyword
    | some type => simp

/-- What is wrong with an unpacked call, and what it loses, is shown where the call stands. -/
theorem pointsIn_planUnpacked (type : Option Ty) (call : Typed) (members : List Ty) {p : Position}
    (hp : P p) : (d.planUnpacked type call members p).PointsIn P := by
  unfold planUnpacked
  split
  · simpa using hd.keyword
  · simp [pointsIn_unpack, hp]

omit hd

/-- Initial values are blamed on themselves, and their warnings are shown there too. -/
theorem pointsIn_initialValues (type : Option Ty) {es : List Expr}
    (hes : ∀ e ∈ es, e.StandsIn P) : (initialValues scopes type es).PointsIn P := by
  induction es with
  | nil => simp [initialValues]
  | cons e es ih =>
    rw [List.forall_mem_cons] at hes
    simp [initialValues, Expr.pointsIn_initializer scopes hes.1, ih hes.2]

/-- Each value is typed for the expression that it stands for, in order. -/
theorem mem_of_initialValues {type : Option Ty} {es : List Expr} {values : List (Expr × Typed)}
    (h : (initialValues scopes type es).outcome = .ok values) : values.map Prod.fst = es := by
  induction es generalizing values with
  | nil =>
    cases h
    rfl
  | cons e es ih =>
    simp only [initialValues, Checked.outcome_bind_eq_ok_iff] at h
    obtain ⟨value, -, others, hothers, heq⟩ := h
    cases heq
    rw [List.map_cons, ih hothers]

/-- What is wrong with the initial value of one name is shown where the value stands. -/
theorem pointsIn_planName (isConstant : Bool) (declared : Option Ty) (name : Token) {e : Expr}
    (he : e.StandsIn P) (value : Typed) :
    (planName isConstant declared name e value).PointsIn P := by
  unfold planName
  cases declared
  all_goals
    simp only [Checked.pointsIn_bind_iff, Checked.pointsIn_ite_iff, Checked.pointsIn_pure,
      pointsIn_inferredType value name.lexeme he.position, Typed.pointsIn_converted _ _ he.position,
      implies_true, and_true, true_and]
    intros
    split <;> simp [he.position]

/-- What is wrong with the initial values of several names is shown where these values stand. -/
theorem pointsIn_planNames (isConstant : Bool) (declared : Option Ty)
    {entries : List (Token × Expr × Typed)} (hentries : ∀ entry ∈ entries, entry.2.1.StandsIn P) :
    (planNames isConstant declared entries).PointsIn P := by
  induction entries with
  | nil => simp [planNames]
  | cons entry entries ih =>
    rw [List.forall_mem_cons] at hentries
    simp [planNames, pointsIn_planName isConstant declared _ hentries.1, ih hentries.2]

include hd

/-- Values that are too many or too few are blamed on the first one. -/
theorem pointsIn_planInitialized (type : Option Ty) {first : Expr} (hfirst : first.StandsIn P) :
    (d.planInitialized scopes type first).PointsIn P := by
  unfold planInitialized
  dsimp only
  split
  · simpa using hfirst.position
  · simp only [Checked.pointsIn_bind_iff]
    refine ⟨pointsIn_initialValues scopes type hd.initializers, fun values hvalues => ?_⟩
    refine pointsIn_planNames _ _ fun entry hentry => ?_
    have hspread := mem_of_mem_spread (List.of_mem_zip hentry).2
    have hmem : entry.2.1 ∈ d.initializers := by
      rw [← mem_of_initialValues scopes hvalues]
      exact List.mem_map_of_mem hspread
    exact hd.initializers _ hmem

/-- What is wrong with a declaration of a given type is shown at one of its tokens, with initial
values or without. -/
theorem pointsIn_planTyped (type : Option Ty) : Checked.PointsIn P (match d.initializers with
    | [] => d.planDefault type
    | first :: _ => do
      match ← unpackable? scopes d.names.length d.initializers with
      | some (call, members) => d.planUnpacked type call members first.position
      | none => d.planInitialized scopes type first) := by
  split
  · exact pointsIn_planDefault hd type
  · rename_i first others hinitializers
    have hfirst : first.StandsIn P := hd.initializers first (by simp [hinitializers])
    have hunpackable := pointsIn_unpackable? scopes hd.initializers d.names.length
    refine Checked.pointsIn_bind_iff.2 ⟨hunpackable, fun unpacked _ => ?_⟩
    split
    · exact pointsIn_planUnpacked hd type _ _ hfirst.position
    · exact pointsIn_planInitialized hd scopes type hfirst

/-- A declaration is blamed where its parts stand. -/
theorem pointsIn_plan : (d.plan scopes).PointsIn P := by
  have htyped := pointsIn_planTyped hd scopes
  unfold plan
  cases htype : d.type with
  | none =>
    exact Checked.pointsIn_bind_iff.2 ⟨Checked.pointsIn_pure none, fun type _ => htyped type⟩
  | some e =>
    have hresolved := Expr.pointsIn_resolveType scopes (hd.type e htype)
    refine Checked.pointsIn_bind_iff.2 ⟨hresolved, fun resolved _ => ?_⟩
    exact Checked.pointsIn_bind_iff.2 ⟨Checked.pointsIn_pure _, fun type _ => htyped type⟩

end Plan

end Declaration

namespace Assignment

variable {s : Statement} {a : Assignment} (hs : s.StandsIn P)

include hs

/-- An assignment that cannot be read is blamed on its tokens. -/
theorem refusesIn_read : RefusesIn P (read s) := by
  unfold read
  split
  · simp
  · rename_i before operator after hsplit
    obtain ⟨hbefore, hoperator, hafter⟩ := hs.of_splitTop hsplit
    have hlist {part : Part} {run : List Token} (hrun : Token.AllIn P run) :
        ∀ run', require part operator run = .ok run' → RefusesIn P (Expr.parseList run') := by
      intro run' hrequire
      have hne := ne_nil_of_require hrequire
      rw [require_eq_ok hrequire] at hne ⊢
      exact Expr.refusesIn_parseList hrun (absurd · hne)
    simp only [refusesIn_bind_iff, refusesIn_liftM_malformed_iff, liftM_malformed_eq_ok_iff,
      refusesIn_pure, implies_true, and_true]
    exact ⟨refusesIn_require hoperator, fun targets htargets =>
      ⟨hlist hbefore targets htargets, fun _ _ => ⟨refusesIn_require hoperator, hlist hafter⟩⟩⟩

/-- An assignment stands where the tokens it is read from do. -/
theorem relocate_eq_of_read (h : read s = .ok a) : a.relocate (shunt P) = a := by
  have hmoved := read_relocate (shunt P) h
  rw [hs.relocate_eq, h] at hmoved
  exact (Except.ok.inj hmoved).symm

end Assignment

namespace Emission

section Headers

variable (scopes : Scopes) {keyword : Token} {run : List Token} {e : Expr} {s : Statement}

/-- Whether a run is an equal sign in front of an initial value, which is read and typed, but names no
variable that is to start there. -/
def StartsNothing (run : List Token) : Prop :=
  ∃ equal initial e start, run = equal :: initial ∧ equal.kind = .equal ∧
    Expr.parse initial = .ok e ∧ (e.value scopes).outcome = .ok start

/-- A condition that is missing is blamed on its keyword, and one that is no condition where it
stands. -/
theorem pointsIn_condition (hkeyword : P keyword.position) (hrun : Token.AllIn P run) :
    (condition scopes keyword run).PointsIn P := by
  simp only [condition, Checked.pointsIn_bind_iff, Checked.pointsIn_liftM_malformed_iff,
    outcome_monadLift_malformed]
  refine ⟨refusesIn_require hkeyword, fun run' hrequire => ?_⟩
  have hne := ne_nil_of_require hrequire
  rw [require_eq_ok hrequire] at hne ⊢
  refine ⟨Expr.refusesIn_parse hrun (absurd · hne), fun e hparse => ?_⟩
  have he := Expr.standsIn_of_parse hrun hparse
  simp [Expr.pointsIn_value scopes he, he.position]

/-- The type of a loop variable is blamed on its tokens, and a token that starts no type on
itself. -/
theorem pointsIn_loopType (start : Typed) (hrun : Token.AllIn P run) :
    (loopType scopes start run).PointsIn P := by
  unfold loopType
  split
  · simp
  · rename_i colon run
    simp only [Token.AllIn, List.forall_mem_cons] at hrun
    obtain ⟨⟨hcolon, -⟩, hrun⟩ := hrun
    refine Checked.pointsIn_ite_iff.2 ⟨fun _ => ?_, fun _ => by simpa using hcolon⟩
    simp only [Checked.pointsIn_bind_iff, Checked.pointsIn_liftM_malformed_iff,
      outcome_monadLift_malformed]
    refine ⟨refusesIn_require hcolon, fun run' hrequire => ?_⟩
    have hne := ne_nil_of_require hrequire
    rw [require_eq_ok hrequire] at hne ⊢
    refine ⟨Expr.refusesIn_parseType hrun (absurd · hne), fun e hparse => ?_⟩
    simpa using Expr.pointsIn_resolveType scopes (Expr.standsIn_of_parseType hrun hparse)

/-- The loop variable is one of the tokens of its header. -/
theorem mem_of_declaredName? {name : Token} (h : declaredName? run = some name) : name ∈ run := by
  obtain ⟨-, others, rfl⟩ := declaredName?_eq_some h
  exact List.mem_cons_self

/-- An initial value that mentions its own variable is blamed where it stands. -/
theorem refusesIn_checkStart (he : e.StandsIn P) : RefusesIn P (checkStart scopes run e) := by
  unfold checkStart
  split
  · simp
  · split <;> simp [he.position]

/-- A header that declares its variable is blamed on its tokens. A variable that is missing is
blamed on the keyword. -/
theorem pointsIn_declaringHeader (hkeyword : P keyword.position) (hrun : Token.AllIn P run)
    (he : e.StandsIn P) (start : Typed) :
    (declaringHeader scopes keyword run e start).PointsIn P := by
  unfold declaringHeader
  split
  · simpa using hkeyword
  · rename_i name hname
    have hposition : P name.position := (hrun name (mem_of_declaredName? hname)).1
    have htype := pointsIn_loopType scopes start (hrun.of_subset (List.drop_subset 1 run))
    refine Checked.pointsIn_bind_iff.2 ⟨htype, fun type _ => ?_⟩
    simp [Typed.pointsIn_converted, he.position, hposition]

/-- A header that reuses a variable is blamed on its tokens. If nothing stands in front of the sign,
there is no token to blame. -/
theorem pointsIn_reusingHeader (hrun : Token.AllIn P run) (hempty : run = [] → P .start)
    (he : e.StandsIn P) (start : Typed) : (reusingHeader scopes run e start).PointsIn P := by
  simp only [reusingHeader, Checked.pointsIn_bind_iff, Checked.pointsIn_liftM_malformed_iff,
    outcome_monadLift_malformed]
  refine ⟨Expr.refusesIn_parse hrun hempty, fun named hparse => ?_⟩
  have hnamed := Expr.standsIn_of_parse hrun hparse
  split
  · simpa using hnamed.position
  · simp [Expr.pointsIn_value, hnamed, Typed.refusesIn_checkModifiable, hnamed.position,
      Typed.pointsIn_converted, he.position]

/-- The first clause of a `for` header is blamed where it stands, or at the start of the text if it
has an initial value and no loop variable. -/
theorem pointsIn_loopHeader (hkeyword : P keyword.position) (hrun : Token.AllIn P run)
    (hvariable : StartsNothing scopes run → P .start) :
    (loopHeader scopes keyword run).PointsIn P := by
  simp only [loopHeader, Checked.pointsIn_bind_iff, Checked.pointsIn_liftM_malformed_iff,
    outcome_monadLift_malformed]
  refine ⟨refusesIn_require hkeyword, fun run' hrequire => ?_⟩
  rw [require_eq_ok hrequire]
  split
  · simpa using hkeyword
  · rename_i target equal initial hsplit
    obtain ⟨htarget, hequal, hinitial⟩ := hrun.of_splitTop hsplit
    simp only [Checked.pointsIn_bind_iff, Checked.pointsIn_liftM_malformed_iff,
      outcome_monadLift_malformed]
    refine ⟨refusesIn_require hequal, fun initial' hrequire => ?_⟩
    have hne := ne_nil_of_require hrequire
    rw [require_eq_ok hrequire] at hne ⊢
    refine ⟨Expr.refusesIn_parse hinitial (absurd · hne), fun e hparse => ?_⟩
    have he := Expr.standsIn_of_parse hinitial hparse
    split
    · rename_i first declaration
      have hreusing := pointsIn_reusingHeader scopes htarget (absurd · (List.cons_ne_nil _ _)) he
      simp only [Token.AllIn, List.forall_mem_cons] at htarget
      have hdeclaring := pointsIn_declaringHeader scopes htarget.1.1 htarget.2 he
      simp [Expr.pointsIn_value, he, refusesIn_checkStart, hdeclaring, hreusing]
    · -- nothing stands in front of the equal sign
      obtain ⟨rfl, hkind⟩ := Token.eq_append_of_splitTop hsplit
      have hvalue : (monadLift (e.value scopes) : Emitting Typed).PointsIn P := by
        simpa using Expr.pointsIn_value scopes he
      refine Checked.pointsIn_bind_iff.2 ⟨hvalue, fun start hstart => ?_⟩
      have hnothing : StartsNothing scopes (equal :: initial) :=
        ⟨equal, initial, e, start, rfl, by simpa using hkind, hparse,
          outcome_monadLift_check.1 hstart⟩
      exact pointsIn_reusingHeader scopes htarget (fun _ => hvariable hnothing) he start

/-- A header of any kind is blamed on its tokens, `for` headers without a variable aside: there is
no token in front of the equal sign to blame, and the start of the text is shown. -/
theorem pointsIn_headerOf (hs : s.StandsIn P)
    (hvariable : s.lead.kind = .keyword .forWord → StartsNothing scopes s.rest → P .start)
    (hlead : s.lead.kind = .keyword .ifWord ∨ s.lead.kind = .keyword .whileWord ∨
      s.lead.kind = .keyword .forWord) : (headerOf scopes s).PointsIn P := by
  have hcondition := pointsIn_condition scopes hs.lead hs.rest
  rcases hlead with hlead | hlead | hlead <;> simp only [headerOf, hlead]
  · simp [hcondition]
  · simp [hcondition]
  · simp [pointsIn_loopHeader scopes hs.lead hs.rest (hvariable hlead)]

/-- An `else` is blamed on the token that should not follow it, or on the condition behind it. -/
theorem pointsIn_alternativeOf (hs : s.StandsIn P) : (alternativeOf scopes s).PointsIn P := by
  have hrest := hs.rest
  unfold alternativeOf
  split
  · simp
  · rename_i next run hsplit
    rw [hsplit] at hrest
    simp only [Token.AllIn, List.forall_mem_cons] at hrest
    simp [pointsIn_condition scopes hrest.1.1 hrest.2, hrest.1.1]

end Headers

end Emission

end Sprout
